import Raiezau.CppTracker.Clauses

/-!
# Failure — declarations that end with an exception

A handler applies each clause as it is read, so what was read before the exception stays.  `Harmless` says
which requests fail without leaving a trace, and `failuresLeaveNoTrace_iff` that these are all: in a run
whose failures are harmless, a getfile reply has endpoints of peers with a completed announce only.
-/

namespace Raiezau
namespace CppTracker

open Memory CUtil Assoc Machine

variable {st st' st₁ st₂ : Tracker} {h : TrackerHistory} {p e f : Addr} {q q' : Peer} {k text line : CString}
  {c : Clause} {done cls : List Clause} {announce : Bool} {l : List Addr}

/-! ## What a failing request must not change -/

structure Unchanged (p : Addr) (st st' : Tracker) : Prop where
  fileMap : st'.fileMap = st.fileMap
  fileSet : st'.fileSet = st.fileSet
  peers : ∀ f, (st'.file f).map File.peers = (st.file f).map File.peers
  peer : ∀ q ∈ st.peer p, ∃ q' ∈ st'.peer p, (∀ k, q'.seed.get k = q.seed.get k) ∧
    (∀ k, q'.leech.get k = q.leech.get k) ∧ q'.listeningPort = q.listeningPort ∧ q'.announced = q.announced

theorem Unchanged.refl (p : Addr) (st : Tracker) : Unchanged p st st :=
  ⟨rfl, rfl, fun _ => rfl, fun q hq => ⟨q, hq, fun _ => rfl, fun _ => rfl, rfl, rfl⟩⟩

theorem Unchanged.trans (h₁ : Unchanged p st st₁) (h₂ : Unchanged p st₁ st') : Unchanged p st st' := by
  refine ⟨h₂.fileMap.trans h₁.fileMap, h₂.fileSet.trans h₁.fileSet,
    fun f => (h₂.peers f).trans (h₁.peers f), fun q hq => ?_⟩
  obtain ⟨q₁, hq₁, hseed₁, hleech₁, hport₁, hann₁⟩ := h₁.peer q hq
  obtain ⟨q₂, hq₂, hseed₂, hleech₂, hport₂, hann₂⟩ := h₂.peer q₁ hq₁
  exact ⟨q₂, hq₂, fun k => (hseed₂ k).trans (hseed₁ k), fun k => (hleech₂ k).trans (hleech₁ k),
    hport₂.trans hport₁, hann₂.trans hann₁⟩

theorem Unchanged.modifyPeer {u : Peer → Peer} (hu : ∀ q ∈ st.peer p, (∀ k, (u q).seed.get k = q.seed.get k) ∧
    (∀ k, (u q).leech.get k = q.leech.get k) ∧ (u q).listeningPort = q.listeningPort ∧
    (u q).announced = q.announced) : Unchanged p st (st.modifyPeer p u) :=
  ⟨rfl, rfl, fun _ => rfl, fun q hq => ⟨u q, peer_modifyPeer_self hq, hu q hq⟩⟩

theorem Unchanged.hasPeer (h : Unchanged p st st') : st'.HasPeer f e ↔ st.HasPeer f e := by
  have hmem : ∀ st : Tracker, st.HasPeer f e ↔ ∃ s ∈ (st.file f).map File.peers, e ∈ s := by
    intro st
    simp [Tracker.HasPeer]
  rw [hmem, hmem, h.peers]

/-- The request is an announce or update whose handler throws. -/
def Fails (st : Tracker) (p : Addr) (line : CString) : Prop :=
  declaredOf line ≠ none ∧ ∃ st' what, handleLine st p line = some (st', some (errorNotice what))

/-- The latest step, if it is a request that fails, has changed nothing. -/
def FailureUnchanged : TrackerHistory → Tracker → Prop
  | (st, .request p line) :: _, st' => Fails st p line → Unchanged p st st'
  | _, _ => True

/-! ## Who appears in a reply -/

/-- A port that can be listened on. -/
def PortOk (port : Nat) : Prop := 1 ≤ port ∧ port ≤ 65535

instance (port : Nat) : Decidable (PortOk port) := inferInstanceAs (Decidable (_ ∧ _))

/-- The peer has completed an announce with a port that can be listened on. -/
def CompletedAnnounce (h : TrackerHistory) (p : Addr) : Prop :=
  ∃ st line st' cls argument port, (st, Event.request p line) ∈ h ∧
    handleLine st p line = some (st', some okReply) ∧ declaredOf line = some (true, cls) ∧
    .listen argument ∈ cls ∧ listenPort argument = some port ∧ PortOk port

/-- An endpoint appears in a getfile reply only if its peer has completed an announce. -/
def EndpointsAnnounced (h : TrackerHistory) (st : Tracker) : Prop :=
  ∀ p line st' reply, handleGetfile st p line = some (st', .ok reply) →
    ∃ hash, ∃ l : List (Addr × Peer),
      reply = "peers ".toList ++ hash ++ " [".toList ++
        [' '].intercalate (l.map fun e => e.2.toString) ++ "]\n".toList ∧
      ∀ e ∈ l, st.peer e.1 = some e.2 ∧ PortOk e.2.listeningPort ∧ CompletedAnnounce h e.1

/-- What is promised of failing requests. -/
def FailuresLeaveNoTrace (h : TrackerHistory) (st : Tracker) : Prop :=
  FailureUnchanged h st ∧ EndpointsAnnounced h st

/-! ## Failures that leave no trace -/

/-- The clause does not throw. -/
def Clause.Fine (announce : Bool) : Clause → Prop
  | .listen argument => announce = true ∧ listenPort argument ≠ none
  | .seed text => announce = true → (tokens text).length % 4 = 0
  | .leech _ => True
  | .unexpected _ => False

instance (announce : Bool) : DecidablePred (Clause.Fine announce)
  | .listen argument => inferInstanceAs (Decidable (announce = true ∧ listenPort argument ≠ none))
  | .seed text => inferInstanceAs (Decidable (announce = true → (tokens text).length % 4 = 0))
  | .leech _ => .isTrue trivial
  | .unexpected _ => .isFalse id

/-- The clauses that are read before one throws. -/
def readBefore (announce : Bool) (cls : List Clause) : List Clause :=
  cls.takeWhile fun c => c.Fine announce

/-- The clauses that a handler goes through to its end. -/
def GoesThrough (announce : Bool) (cls : List Clause) : Prop :=
  (∀ c ∈ cls, c.Fine announce) ∧ (cls.foldl Seen.mark Seen.none).All announce

instance (announce : Bool) (cls : List Clause) : Decidable (GoesThrough announce cls) :=
  inferInstanceAs (Decidable (_ ∧ _))

/-- A clause of an announce that sets no port and names no file. -/
def Clause.NamesNothing (st : Tracker) : Clause → Prop
  | .listen _ => False
  | .seed text => entries (tokens text) = []
  | .leech text => registered st text = []
  | .unexpected _ => True

instance (st : Tracker) : DecidablePred (Clause.NamesNothing st)
  | .listen _ => .isFalse id
  | .seed text => inferInstanceAs (Decidable (entries (tokens text) = []))
  | .leech text => inferInstanceAs (Decidable (registered st text = []))
  | .unexpected _ => .isTrue trivial

/-- The list of a clause. -/
def Clause.list : Clause → CString
  | .seed text => text
  | .leech text => text
  | .listen _ => []
  | .unexpected _ => []

/-- The registered files under the words of a text, by their hashes. -/
def namedIn (st : Tracker) (text k : CString) : Option Addr :=
  if k ∈ tokens text then st.fileMap.get k else none

/-- The lists of an update name nothing that is new, and the last one all that the peer leeches. -/
def NamesAgain (st : Tracker) (p : Addr) (q : Peer) (done : List Clause) : Prop :=
  (∀ c ∈ done.getLast?, ∀ k ∈ q.leech.keys ++ tokens c.list, q.leech.get k = namedIn st c.list k) ∧
    ∀ c ∈ done, ∀ f ∈ registered st c.list, ∀ x ∈ st.file f, p ∈ x.peers

instance (st : Tracker) (p : Addr) (q : Peer) (done : List Clause) : Decidable (NamesAgain st p q done) :=
  inferInstanceAs (Decidable (_ ∧ _))

/-- A failing declaration: the clauses read before it fails have no effect. -/
def Harmless (_ : TrackerHistory) (st : Tracker) : Event → Prop
  | .request p line => ∀ q ∈ st.peer p, ∀ d ∈ declaredOf line,
      q.announced = !d.1 → ¬ GoesThrough d.1 d.2 →
        if d.1 then ∀ c ∈ readBefore true d.2, c.NamesNothing st
        else NamesAgain st p q (readBefore false d.2)
  | _ => True

instance (h : TrackerHistory) (st : Tracker) : ∀ ev, Decidable (Harmless h st ev)
  | .connect _ => .isTrue trivial
  | .disconnect _ => .isTrue trivial
  | .request p line => inferInstanceAs (Decidable (∀ q ∈ st.peer p, ∀ d ∈ declaredOf line,
      q.announced = !d.1 → ¬ GoesThrough d.1 d.2 →
        if d.1 then ∀ c ∈ readBefore true d.2, c.NamesNothing st
        else NamesAgain st p q (readBefore false d.2)))

/-! ## One clause -/

theorem fine_of_applyClause (h : applyClause announce p st c = some (st', .ok ())) : c.Fine announce := by
  cases announce with
  | true =>
      cases c with
      | listen argument =>
          refine ⟨rfl, fun hnone => ?_⟩
          have herr : applyClause true p st (.listen argument) =
              some (st, .error "invalid listening port".toList) := by
            simp [applyClause, announceClause, hnone]
          rw [herr] at h
          cases (Prod.mk.inj (Option.some.inj h)).2
      | seed text =>
          intro _
          by_contra hne
          have herr : applyClause true p st (.seed text) =
              some (st.modifyPeer p (fun q => { q with seed := [] }),
                .error "invalid seed argument count".toList) := if_pos hne
          rw [herr] at h
          cases (Prod.mk.inj (Option.some.inj h)).2
      | leech text => trivial
      | unexpected keyword => cases (Prod.mk.inj (Option.some.inj h)).2
  | false =>
      cases c with
      | listen argument => cases (Prod.mk.inj (Option.some.inj h)).2
      | seed text => exact fun hcon => absurd hcon Bool.false_ne_true
      | leech text => trivial
      | unexpected keyword => cases (Prod.mk.inj (Option.some.inj h)).2

/-- A clause that throws has cleared the seed map at most. -/
theorem applyClause_error {what : CString} (h : applyClause announce p st c = some (st', .error what)) :
    ¬ c.Fine announce ∧
      (st' = st ∨ announce = true ∧ st' = st.modifyPeer p fun q => { q with seed := [] }) := by
  have hparse : ∀ {o : Option Tracker}, o.map (fun st => (st, Except.ok ())) ≠ some (st', .error what) := by
    intro o ho
    obtain ⟨st₁, -, hpair⟩ := Option.map_eq_some_iff.1 ho
    cases (Prod.mk.inj hpair).2
  cases announce with
  | true =>
      cases c with
      | listen argument =>
          rw [applyClause, if_pos rfl, announceClause] at h
          split at h
          · cases (Prod.mk.inj (Option.some.inj h)).2
          · next hnone => exact ⟨fun hf => hf.2 hnone, .inl (Prod.mk.inj (Option.some.inj h)).1.symm⟩
      | seed text =>
          have h' : parseAnnounceSeed st p text = some (st', .error what) := h
          simp only [parseAnnounceSeed] at h'
          split at h'
          · next hcount =>
              exact ⟨fun hf => hcount (hf rfl), .inr ⟨rfl, (Prod.mk.inj (Option.some.inj h')).1.symm⟩⟩
          · exact absurd h' hparse
      | leech text => exact absurd h hparse
      | unexpected keyword => exact ⟨id, .inl (Prod.mk.inj (Option.some.inj h)).1.symm⟩
  | false =>
      cases c with
      | listen argument =>
          exact ⟨fun hf => Bool.false_ne_true hf.1, .inl (Prod.mk.inj (Option.some.inj h)).1.symm⟩
      | seed text => exact absurd h hparse
      | leech text => exact absurd h hparse
      | unexpected keyword => exact ⟨id, .inl (Prod.mk.inj (Option.some.inj h)).1.symm⟩

theorem fine_of_foldlM (h : cls.foldlM (accept (applyClause announce p)) st = some st') :
    ∀ c ∈ cls, c.Fine announce := by
  refine foldlM_done (P := fun done _ => ∀ c ∈ done, c.Fine announce) (by simp) ?_ h
  intro done rest a st st' _ hdone ha c hc
  rcases List.mem_append.1 hc with hc | hc
  · exact hdone c hc
  · obtain rfl := List.mem_singleton.1 hc
    exact fine_of_applyClause (accept_eq_some.1 ha)

theorem readBefore_of_fine (h : ∀ c ∈ cls, c.Fine announce) : readBefore announce cls = cls := by
  unfold readBefore
  rw [List.takeWhile_eq_self_iff]
  simpa using h

theorem readBefore_append {rest : List Clause} (h : ∀ c ∈ done, c.Fine announce) (hc : ¬ c.Fine announce) :
    readBefore announce (done ++ c :: rest) = done := by
  unfold readBefore
  rw [List.takeWhile_append_of_pos (by simpa using h), List.takeWhile_cons_of_neg (by simpa using hc),
    List.append_nil]

/-! ## The clauses of an announce -/

theorem listenPort_ok {argument : CString} {port : Nat} (h : listenPort argument = some port) :
    PortOk port := by
  unfold listenPort at h
  split at h
  · next n hn =>
      split at h
      · cases h
      · next hrange =>
          obtain rfl := Option.some.inj h
          unfold PortOk
          omega
  · cases h

/-- The clauses `done` of an announce have been read, and `p` has entered the files of `l`. -/
structure AnnounceRead (st : Tracker) (p : Addr) (q : Peer) (done : List Clause) (l : List Addr) (q' : Peer)
    (st' : Tracker) : Prop extends Enrolled p l st st' where
  peer : st'.peer p = some q'
  announced : q'.announced = q.announced
  port : ∀ argument, .listen argument ∈ done → PortOk q'.listeningPort
  seed : ∀ text, .seed text ∈ done → entries (tokens text) ≠ [] → l ≠ []
  leech : ∀ text, .leech text ∈ done → registered st text ≠ [] → l ≠ []

theorem registered_ne_nil_of_lookup (h : ∀ {k f}, st.fileMap.get k = some f → st'.fileMap.get k = some f)
    (hne : registered st text ≠ []) : registered st' text ≠ [] := by
  obtain ⟨f, hf⟩ := List.exists_mem_of_ne_nil _ hne
  obtain ⟨k, hk, hget⟩ := List.mem_filterMap.1 hf
  exact List.ne_nil_of_mem (List.mem_filterMap.2 ⟨k, hk, h hget⟩)

theorem AnnounceRead.step (hr : AnnounceRead st p q done l q' st₁)
    (hc : announceClause p st₁ c = some (st', .ok ())) :
    ∃ l' q'', AnnounceRead st p q (done ++ [c]) l' q'' st' := by
  have hseed : ∀ {l₂ : List Addr} {text}, .seed text ∈ done → entries (tokens text) ≠ [] → l ++ l₂ ≠ [] :=
    fun ht hne => List.append_ne_nil_of_left_ne_nil (hr.seed _ ht hne) _
  have hleech : ∀ {l₂ : List Addr} {text}, .leech text ∈ done → registered st text ≠ [] → l ++ l₂ ≠ [] :=
    fun ht hne => List.append_ne_nil_of_left_ne_nil (hr.leech _ ht hne) _
  -- The lists of files only grow, so what an earlier clause has entered is still there.
  cases c with
  | listen argument =>
      rw [announceClause] at hc
      split at hc
      · next port hport =>
          obtain ⟨rfl, -⟩ := Prod.mk.inj (Option.some.inj hc)
          refine ⟨_, _, ⟨hr.toEnrolled.trans (enrolled_modifyPeer hr.registry p _),
            peer_modifyPeer_self hr.peer, hr.announced, fun _ _ => listenPort_ok hport, ?_, ?_⟩⟩
          · intro text ht
            exact hseed (by simpa using ht)
          · intro text ht
            exact hleech (by simpa using ht)
      · cases (Prod.mk.inj (Option.some.inj hc)).2
  | seed text =>
      obtain ⟨l₂, m, hs⟩ := parseAnnounceSeed_ok hr.registry hr.peer hc
      refine ⟨_, _, ⟨hr.toEnrolled.trans hs.toEnrolled, hs.peer, hr.announced, ?_, ?_, ?_⟩⟩
      · intro argument ha
        exact hr.port argument (by simpa using ha)
      · intro text' ht hne
        rcases List.mem_append.1 ht with ht | ht
        · exact hseed ht hne
        · obtain rfl := Clause.seed.inj (List.mem_singleton.1 ht)
          refine List.append_ne_nil_of_right_ne_nil _ fun hnil => hne ?_
          have hfiles := hs.files
          rw [hnil] at hfiles
          exact List.forall₂_nil_left_iff.1 hfiles
      · intro text' ht
        exact hleech (by simpa using ht)
  | leech text =>
      obtain ⟨st₂, hparse, hpair⟩ := Option.map_eq_some_iff.1 hc
      obtain ⟨rfl, -⟩ := Prod.mk.inj hpair
      obtain ⟨m, hl⟩ := parseAnnounceLeech_leeched hr.registry hr.peer hparse
      refine ⟨_, _, ⟨hr.toEnrolled.trans hl.toEnrolled, hl.peer, hr.announced, ?_, ?_, ?_⟩⟩
      · intro argument ha
        exact hr.port argument (by simpa using ha)
      · intro text' ht
        exact hseed (by simpa using ht)
      · intro text' ht hne
        rcases List.mem_append.1 ht with ht | ht
        · exact hleech ht hne
        · obtain rfl := Clause.leech.inj (List.mem_singleton.1 ht)
          exact List.append_ne_nil_of_right_ne_nil _ (registered_ne_nil_of_lookup hr.lookup hne)
  | unexpected keyword => cases (Prod.mk.inj (Option.some.inj hc)).2

theorem announceRead_of_foldlM (hreg : Registry st) (hq : st.peer p = some q)
    (h : done.foldlM (accept (announceClause p)) st = some st') :
    ∃ l q', AnnounceRead st p q done l q' st' := by
  refine foldlM_done (P := fun done st' => ∃ l q', AnnounceRead st p q done l q' st') ?_ ?_ h
  · exact ⟨[], q, ⟨Enrolled.refl hreg p, hq, rfl, by simp, by simp, by simp⟩⟩
  · rintro done rest c st₁ st₂ - ⟨l, q', hr⟩ hc
    exact hr.step (accept_eq_some.1 hc)

/-- A peer that has declared nothing. -/
structure Quiet (st : Tracker) (p : Addr) (q : Peer) : Prop where
  port : q.listeningPort = 0
  seed : ∀ k, q.seed.get k = none
  leech : ∀ k, q.leech.get k = none
  unlisted : ∀ f, ¬ st.HasPeer f p

theorem seedEntries_of_nil {v : List CString} (h : entries v = []) : seedEntries p st v = some st := by
  -- Every entry is passed over, as one of its numbers cannot be read.
  induction st, v using seedEntries.induct with
  | case1 st name size piece hash v ih =>
      rw [entries_append_four] at h
      obtain ⟨hone, hrest⟩ := List.append_eq_nil_iff.1 h
      have hskip : seedEntry p st name size piece hash = some st := by
        unfold seedEntry
        unfold entries at hone
        cases hs : stoul size with
        | none => rfl
        | some fileSize =>
            cases hp : stoul piece with
            | none => rfl
            | some pieceSize =>
                rw [hs, hp] at hone
                cases hone
      rw [seedEntries, hskip]
      exact ih st hrest
  | case2 v st hshort =>
      rw [seedEntries]
      exact hshort

theorem Unchanged.leeched {m : FileMap} (hq : st.peer p = some q) (hleech : ∀ k, q.leech.get k = none)
    (hl : Leeched p { q with leech := [] } (tokens text) m st st') (hnone : registered st text = []) :
    Unchanged p st st' := by
  refine ⟨hl.fileMap, hl.fileSet, fun f => ?_, fun q₀ hq₀ => ?_⟩
  · rw [hl.file, show (tokens text).filterMap st.fileMap.get = [] from hnone]
    simp
  · obtain rfl := Option.some.inj (hq.symm.trans hq₀)
    refine ⟨_, hl.peer, fun _ => rfl, fun k => ?_, rfl, rfl⟩
    have hkey : k ∈ tokens text → st.fileMap.get k = none := fun hk =>
      List.filterMap_eq_nil_iff.1 hnone k hk
    rw [hleech]
    change m.get k = none
    rw [hl.get]
    split
    · next hk => rw [hkey hk]; rfl
    · rfl

/-- Reading clauses that name nothing changes nothing. -/
theorem unchanged_of_namesNothing (hreg : Registry st) (hq : st.peer p = some q) (hquiet : Quiet st p q)
    (h : done.foldlM (accept (announceClause p)) st = some st') (hall : ∀ c ∈ done, c.NamesNothing st) :
    Unchanged p st st' := by
  refine And.left (foldlM_done (P := fun _ st' => Unchanged p st st' ∧ Registry st')
    ⟨Unchanged.refl p st, hreg⟩ ?_ h)
  rintro read rest c st₁ st₂ rfl ⟨hun, hreg₁⟩ hc
  obtain ⟨q₁, hq₁, hseed₁, hleech₁, hport₁, hann₁⟩ := hun.peer q hq
  have hnothing : c.NamesNothing st := hall c (by simp)
  have hc := accept_eq_some.1 hc
  cases c with
  | listen argument => exact hnothing.elim
  | seed text =>
      have hnil : entries (tokens text) = [] := hnothing
      simp only [announceClause, parseAnnounceSeed, seedEntries_of_nil hnil] at hc
      split at hc
      · cases (Prod.mk.inj (Option.some.inj hc)).2
      · obtain ⟨rfl, -⟩ := Prod.mk.inj (Option.some.inj hc)
        refine ⟨hun.trans (Unchanged.modifyPeer fun q' hq' => ?_), hreg₁⟩
        obtain rfl := Option.some.inj (hq₁.symm.trans hq')
        exact ⟨fun k => ((hseed₁ k).trans (hquiet.seed k)).symm, fun _ => rfl, rfl, rfl⟩
  | leech text =>
      obtain ⟨st₃, hparse, hpair⟩ := Option.map_eq_some_iff.1 hc
      obtain ⟨rfl, -⟩ := Prod.mk.inj hpair
      obtain ⟨m, hl⟩ := parseAnnounceLeech_leeched hreg₁ hq₁ hparse
      have hnone : registered st₁ text = [] := by
        unfold registered
        rw [hun.fileMap]
        exact hnothing
      have hleech : ∀ k, q₁.leech.get k = none := fun k => (hleech₁ k).trans (hquiet.leech k)
      exact ⟨hun.trans (Unchanged.leeched hq₁ hleech hl hnone), hl.registry⟩
  | unexpected keyword => cases (Prod.mk.inj (Option.some.inj hc)).2

/-- A clause that names something leaves a trace. -/
theorem namesNothing_of_unchanged (hr : AnnounceRead st p q done l q' st₁) (hq : st.peer p = some q)
    (hquiet : Quiet st p q) (hpeers : ∀ {f}, st'.HasPeer f p ↔ st₁.HasPeer f p)
    (hport : (st'.peer p).map Peer.listeningPort = some q'.listeningPort) (hun : Unchanged p st st') :
    ∀ c ∈ done, c.NamesNothing st := by
  have hnil : l = [] := by
    refine List.eq_nil_iff_forall_not_mem.2 fun f hf => hquiet.unlisted f ?_
    rw [← hun.hasPeer, hpeers, hr.hasPeer]
    exact .inr ⟨rfl, hf⟩
  intro c hc
  cases c with
  | listen argument =>
      obtain ⟨q₂, hq₂, -, -, hsame, -⟩ := hun.peer q hq
      have hzero : q'.listeningPort = 0 := by
        have hq₂' : st'.peer p = some q₂ := hq₂
        rw [hq₂'] at hport
        exact (Option.some.inj hport).symm.trans (hsame.trans hquiet.port)
      have hpos := (hr.port argument hc).1
      rw [hzero] at hpos
      cases hpos
  | seed text => exact by_contra fun hne => hr.seed text hc hne hnil
  | leech text => exact by_contra fun hne => hr.leech text hc hne hnil
  | unexpected keyword => trivial

/-! ## The clauses of an update -/

/-- The clauses `done` of an update have been read, and `m` is the leech map left. -/
structure UpdateRead (st : Tracker) (p : Addr) (q : Peer) (done : List Clause) (m : FileMap)
    (st' : Tracker) : Prop where
  enrolled : ∃ l, Enrolled p l st st'
  peer : st'.peer p = some { q with leech := m }
  fileMap : st'.fileMap = st.fileMap
  fileSet : st'.fileSet = st.fileSet
  file : ∀ g, st'.file g = (st.file g).map fun x =>
    if ∃ c ∈ done, g ∈ registered st c.list then { x with peers := x.peers.insert p } else x
  get : ∀ k, m.get k = (done.getLast?).elim (q.leech.get k) fun c => namedIn st c.list k

theorem parse_of_updateClause (h : updateClause p st c = some (st', .ok ())) :
    parseAnnounceLeech st p c.list = some st' := by
  cases c with
  | listen argument => cases (Prod.mk.inj (Option.some.inj h)).2
  | unexpected keyword => cases (Prod.mk.inj (Option.some.inj h)).2
  | seed text =>
      obtain ⟨st₁, hparse, hpair⟩ := Option.map_eq_some_iff.1 h
      obtain ⟨rfl, -⟩ := Prod.mk.inj hpair
      exact hparse
  | leech text =>
      obtain ⟨st₁, hparse, hpair⟩ := Option.map_eq_some_iff.1 h
      obtain ⟨rfl, -⟩ := Prod.mk.inj hpair
      exact hparse

theorem updateRead_of_foldlM (hreg : Registry st) (hq : st.peer p = some q)
    (h : done.foldlM (accept (updateClause p)) st = some st') : ∃ m, UpdateRead st p q done m st' := by
  refine foldlM_done (P := fun done st' => ∃ m, UpdateRead st p q done m st') ?_ ?_ h
  · exact ⟨q.leech, ⟨⟨_, Enrolled.refl hreg p⟩, hq, rfl, rfl, by simp, by simp⟩⟩
  · rintro read rest c st₁ st₂ - ⟨m, hr⟩ hc
    obtain ⟨l, henr⟩ := hr.enrolled
    obtain ⟨m', hl⟩ := parseAnnounceLeech_leeched henr.registry hr.peer
      (parse_of_updateClause (accept_eq_some.1 hc))
    refine ⟨m', ⟨⟨_, henr.trans hl.toEnrolled⟩, hl.peer, hl.fileMap.trans hr.fileMap,
      hl.fileSet.trans hr.fileSet, fun g => ?_, fun k => ?_⟩⟩
    · have hnamed : (tokens c.list).filterMap st₁.fileMap.get = registered st c.list := by
        rw [hr.fileMap]
        rfl
      rw [hl.file, hr.file, hnamed]
      cases st.file g with
      | none => rfl
      | some x =>
          by_cases hread : ∃ c ∈ read, g ∈ registered st c.list
          · by_cases hg : g ∈ registered st c.list
            · simp [hread, hg, PtrSet.insert_insert, or_and_right, exists_or]
            · simp [hread, hg, or_and_right, exists_or]
          · simp [hread, or_and_right, exists_or]
    · rw [hl.get, hr.fileMap]
      simp [namedIn, FileMap.get]

theorem PtrSet.insert_eq_self {s : PtrSet} {a : Addr} : s.insert a = s ↔ a ∈ s := by
  constructor
  · intro heq
    rw [← heq]
    exact PtrSet.mem_insert.2 (.inl rfl)
  · intro ha
    unfold PtrSet.insert
    exact if_pos ha

theorem unchanged_iff_namesAgain {m : FileMap} (hq : st.peer p = some q)
    (hr : UpdateRead st p q done m st') : Unchanged p st st' ↔ NamesAgain st p q done := by
  constructor
  · intro hun
    refine ⟨fun c hc k _ => ?_, fun c hc f hf x hx => ?_⟩
    · obtain ⟨q₁, hq₁, -, hleech, -⟩ := hun.peer q hq
      obtain rfl := Option.some.inj (hr.peer.symm.trans hq₁)
      calc
        q.leech.get k = m.get k := (hleech k).symm
        _ = namedIn st c.list k := by rw [hr.get, Option.mem_def.1 hc]; rfl
    · have hx : st.file f = some x := hx
      have hsame := hun.peers f
      rw [hr.file, hx] at hsame
      simp only [Option.map_some, if_pos (⟨c, hc, hf⟩ : ∃ c ∈ done, f ∈ registered st c.list)] at hsame
      exact PtrSet.insert_eq_self.1 (Option.some.inj hsame)
  · rintro ⟨hlast, hlisted⟩
    refine ⟨hr.fileMap, hr.fileSet, fun f => ?_, fun q₀ hq₀ => ?_⟩
    · rw [hr.file]
      cases hx : st.file f with
      | none => rfl
      | some x =>
          by_cases hread : ∃ c ∈ done, f ∈ registered st c.list
          · obtain ⟨c, hc, hf⟩ := hread
            have hmem : p ∈ x.peers := hlisted c hc f hf x hx
            simp [PtrSet.insert_eq_self.2 hmem]
          · simp [hread]
    · obtain rfl := Option.some.inj (hq.symm.trans hq₀)
      refine ⟨_, hr.peer, fun _ => rfl, fun k => ?_, rfl, rfl⟩
      change m.get k = q.leech.get k
      rw [hr.get]
      cases hc : done.getLast? with
      | none => rfl
      | some c =>
          change namedIn st c.list k = q.leech.get k
          by_cases hk : k ∈ q.leech.keys ++ tokens c.list
          · exact (hlast c hc k hk).symm
          · -- a key of neither side
            have hkeys : k ∉ q.leech.keys ∧ k ∉ tokens c.list := by simpa using hk
            rw [namedIn, if_neg hkeys.2]
            exact (Table.lookup_eq_none_iff.2 hkeys.1).symm

/-! ## A failing request -/

theorem Unchanged.symm (h : Unchanged p st st') (hq : st.peer p = some q) : Unchanged p st' st := by
  obtain ⟨q₁, hq₁, hseed, hleech, hport, hann⟩ := h.peer q hq
  refine ⟨h.fileMap.symm, h.fileSet.symm, fun f => (h.peers f).symm, fun q₂ hq₂ => ?_⟩
  obtain rfl := Option.some.inj (Eq.trans (Eq.symm hq₁) hq₂)
  exact ⟨q, hq, fun k => (hseed k).symm, fun k => (hleech k).symm, hport.symm, hann.symm⟩

theorem unchanged_countError (st : Tracker) (p : Addr) : Unchanged p st (countError st p) :=
  Unchanged.modifyPeer fun _ _ => ⟨fun _ => rfl, fun _ => rfl, rfl, rfl⟩

/-- What a peer that has not announced can show for itself. -/
structure Sound (st : Tracker) : Prop where
  registry : Registry st
  quiet : ∀ {p q}, st.peer p = some q → q.announced = false → Quiet st p q
  port : ∀ {p q}, st.peer p = some q → q.announced = true → PortOk q.listeningPort
  born : ∀ {f p}, st.HasPeer f p → p < st.peerHeap.fresh

/-- The clauses that a failing declaration has read, and what they led to. -/
theorem failing_read {what : CString} (h : handleLine st p line = some (st', some (errorNotice what)))
    (hd : declaredOf line = some (announce, cls)) :
    ∃ q, st.peer p = some q ∧ ((q.announced = announce ∧ st' = countError st p) ∨
      (q.announced = !announce ∧ ¬ GoesThrough announce cls ∧
        ∃ st₁ st₂, (readBefore announce cls).foldlM (accept (applyClause announce p)) st = some st₁ ∧
          (st₂ = st₁ ∨ announce = true ∧ st₂ = st₁.modifyPeer p fun q => { q with seed := [] }) ∧
          st' = countError st₂ p)) := by
  obtain ⟨q, st₂, hq, rfl, ⟨hann, rfl⟩ | ⟨hann, hread | ⟨hall, hfold⟩⟩⟩ := handleLine_error h hd
  · exact ⟨q, hq, .inl ⟨hann, rfl⟩⟩
  · obtain ⟨done, c, rest, st₁, what', rfl, hfold, hc⟩ := hread
    obtain ⟨hfine, hst₂⟩ := applyClause_error hc
    refine ⟨q, hq, .inr ⟨hann, fun hgoes => hfine (hgoes.1 c (by simp)), st₁, st₂, ?_, hst₂, rfl⟩⟩
    rw [readBefore_append (fine_of_foldlM hfold) hfine]
    exact hfold
  · refine ⟨q, hq, .inr ⟨hann, fun hgoes => hall hgoes.2, st₂, st₂, ?_, .inl rfl, rfl⟩⟩
    rw [readBefore_of_fine (fine_of_foldlM hfold)]
    exact hfold

theorem failure_unchanged_iff {what : CString} (hs : Sound st)
    (h : handleLine st p line = some (st', some (errorNotice what)))
    (hd : declaredOf line = some (announce, cls)) :
    Unchanged p st st' ↔ Harmless [] st (.request p line) := by
  obtain ⟨q, hq, hcase⟩ := failing_read h hd
  have hharm : Harmless [] st (.request p line) ↔ (q.announced = !announce → ¬ GoesThrough announce cls →
      if announce then ∀ c ∈ readBefore true cls, c.NamesNothing st
      else NamesAgain st p q (readBefore false cls)) := by
    constructor
    · intro hh
      exact hh q hq _ hd
    · rintro hh q₀ hq₀ d hd₀
      obtain rfl := Option.some.inj (hq.symm.trans hq₀)
      obtain rfl := Option.some.inj (hd.symm.trans hd₀)
      exact hh
  rw [hharm]
  -- The handler throws at once for a peer in the wrong state, else at the end of some clauses.
  rcases hcase with ⟨hann, rfl⟩ | ⟨hann, hgoes, st₁, st₂, hfold, hst₂, rfl⟩
  · refine ⟨fun _ hcon => ?_, fun _ => unchanged_countError st p⟩
    rw [hann] at hcon
    cases announce <;> cases hcon
  · rw [imp_iff_right hann, imp_iff_right hgoes]
    cases announce with
    | true =>
        have hquiet := hs.quiet hq hann
        obtain ⟨l, q', hr⟩ := announceRead_of_foldlM hs.registry hq hfold
        rw [if_pos rfl]
        constructor
        · intro hun
          refine namesNothing_of_unchanged hr hq hquiet ?_ ?_ hun
          · rcases hst₂ with rfl | ⟨-, rfl⟩ <;> exact fun {f} => Iff.rfl
          · rcases hst₂ with rfl | ⟨-, rfl⟩
            · rw [countError, peer_modifyPeer_self hr.peer]
              rfl
            · rw [countError, peer_modifyPeer_self (peer_modifyPeer_self hr.peer)]
              rfl
        · intro hall
          have hun : Unchanged p st st₁ := unchanged_of_namesNothing hs.registry hq hquiet hfold hall
          refine Unchanged.trans ?_ (unchanged_countError st₂ p)
          rcases hst₂ with rfl | ⟨-, rfl⟩
          · exact hun
          · refine hun.trans (Unchanged.modifyPeer fun q₁ hq₁ => ?_)
            obtain ⟨q₂, hq₂, hseed, -⟩ := hun.peer q hq
            obtain rfl := Option.some.inj (Eq.trans (Eq.symm hq₁) hq₂)
            exact ⟨fun k => ((hseed k).trans (hquiet.seed k)).symm, fun _ => rfl, rfl, rfl⟩
    | false =>
        obtain ⟨m, hr⟩ := updateRead_of_foldlM hs.registry hq hfold
        obtain rfl : st₂ = st₁ := hst₂.resolve_right fun hcon => Bool.false_ne_true hcon.1
        have hcount := unchanged_countError st₂ p
        rw [if_neg Bool.false_ne_true, ← unchanged_iff_namesAgain hq hr]
        exact ⟨fun hun => hun.trans (hcount.symm hr.peer), fun hun => hun.trans hcount⟩

/-! ## What a line can do -/

theorem exists_listen_of_seen {seen : Seen} (h : (cls.foldl Seen.mark seen).listen = true) :
    seen.listen = true ∨ ∃ argument, .listen argument ∈ cls := by
  induction cls generalizing seen with
  | nil => exact .inl h
  | cons c cls ih =>
      rcases ih h with hmark | ⟨argument, ha⟩
      · cases c with
        | listen argument => exact .inr ⟨argument, List.mem_cons_self⟩
        | seed text => exact .inl hmark
        | leech text => exact .inl hmark
        | unexpected keyword => exact .inl hmark
      · exact .inr ⟨argument, List.mem_cons_of_mem _ ha⟩

/-- The clauses of either handler leave the peer as announced as it was. -/
theorem read_of_foldlM (hreg : Registry st) (hq : st.peer p = some q)
    (h : cls.foldlM (accept (applyClause announce p)) st = some st') :
    ∃ l q', Enrolled p l st st' ∧ st'.peer p = some q' ∧ q'.announced = q.announced ∧
      (announce = true → ∀ argument, .listen argument ∈ cls → PortOk q'.listeningPort) ∧
      (announce = false → q'.listeningPort = q.listeningPort) := by
  cases announce with
  | true =>
      obtain ⟨l, q', hr⟩ := announceRead_of_foldlM hreg hq h
      exact ⟨l, q', hr.toEnrolled, hr.peer, hr.announced, fun _ => hr.port,
        fun hcon => absurd hcon.symm Bool.false_ne_true⟩
  | false =>
      obtain ⟨m, hr⟩ := updateRead_of_foldlM hreg hq h
      obtain ⟨l, henr⟩ := hr.enrolled
      exact ⟨l, _, henr, hr.peer, rfl, fun hcon => absurd hcon Bool.false_ne_true, fun _ => rfl⟩

/-- What a line of `p` can do to the tracker. -/
inductive Effect (st : Tracker) (p : Addr) (q : Peer) (line : CString) (st' : Tracker) (q' : Peer) : Prop
  | announced {cls : List Clause} {argument : CString} {port : Nat}
      (hreply : handleLine st p line = some (st', some okReply)) (hd : declaredOf line = some (true, cls))
      (hlisten : .listen argument ∈ cls) (hport : listenPort argument = some port)
      (hann : q'.announced = true) (hok : PortOk q'.listeningPort)
  | updated (hbefore : q.announced = true) (hann : q'.announced = true)
      (hport : q'.listeningPort = q.listeningPort)
  | failed (hfail : Fails st p line) (hann : q'.announced = q.announced)
  | other (hun : Unchanged p st st') (hann : q'.announced = q.announced)

theorem enrolled_modifyPeers {u : Peer → Peer} (henr : Enrolled p l st st₁) :
    Enrolled p l st (st₁.modifyPeer p u) := by
  have htrans := henr.trans (enrolled_modifyPeer henr.registry p u)
  rw [List.append_nil] at htrans
  exact htrans

theorem handleLine_effect {reply : Option CString} (hreg : Registry st) (hq : st.peer p = some q)
    (h : handleLine st p line = some (st', reply)) :
    ∃ l q', Enrolled p l st st' ∧ st'.peer p = some q' ∧ Effect st p q line st' q' := by
  -- The other requests only read, and count errors.
  cases hd : declaredOf line with
  | none =>
      rcases handleLine_other h hd with rfl | ⟨n, rfl⟩
      · exact ⟨[], q, Enrolled.refl hreg p, hq, .other (Unchanged.refl p st') rfl⟩
      · exact ⟨[], _, enrolled_modifyPeer hreg p _, peer_modifyPeer_self hq,
          .other (Unchanged.modifyPeer fun _ _ => ⟨fun _ => rfl, fun _ => rfl, rfl, rfl⟩) rfl⟩
  | some d =>
      obtain ⟨announce, cls⟩ := d
      obtain ⟨ss, -, ⟨-, -, -, rfl⟩ | ⟨-, what, -, -, rfl⟩⟩ := handleLine_declared h hd
      · obtain ⟨q₀, st₁, hq₀, hann, hfold, hall, hst'⟩ := handleLine_ok h hd
        obtain rfl := Option.some.inj (hq.symm.trans hq₀)
        obtain ⟨l, q', henr, hpeer, hsame, hport, hport'⟩ := read_of_foldlM hreg hq hfold
        cases announce with
        | true =>
            obtain ⟨argument, ha⟩ := (exists_listen_of_seen (hall.1 rfl)).resolve_left Bool.false_ne_true
            obtain ⟨-, hne⟩ := fine_of_foldlM hfold _ ha
            obtain ⟨port, hlisten⟩ := Option.ne_none_iff_exists'.1 hne
            have henr' : Enrolled p l st st' := by
              rw [hst']
              exact enrolled_modifyPeers (enrolled_modifyPeers henr)
            have hpeer' : st'.peer p = some { { q' with announced := true } with seqErrorCount := 0 } := by
              rw [hst']
              exact peer_modifyPeer_self (peer_modifyPeer_self hpeer)
            exact ⟨l, _, henr', hpeer', .announced h hd ha hlisten rfl (hport rfl argument ha)⟩
        | false =>
            subst hst'
            exact ⟨l, _, enrolled_modifyPeers henr, peer_modifyPeer_self hpeer,
              .updated hann (hsame.trans hann) (hport' rfl)⟩
      · have hfail : Fails st p line := ⟨by simp [hd], _, _, h⟩
        obtain ⟨q₀, hq₀, ⟨-, rfl⟩ | ⟨-, -, st₁, st₂, hfold, hst₂, rfl⟩⟩ := failing_read h hd
        · exact ⟨[], _, enrolled_modifyPeer hreg p _, peer_modifyPeer_self hq, .failed hfail rfl⟩
        · obtain rfl := Option.some.inj (hq.symm.trans hq₀)
          obtain ⟨l, q', henr, hpeer, hsame, -, -⟩ := read_of_foldlM hreg hq hfold
          rcases hst₂ with rfl | ⟨-, rfl⟩
          · exact ⟨l, _, enrolled_modifyPeers henr, peer_modifyPeer_self hpeer, .failed hfail hsame⟩
          · exact ⟨l, _, enrolled_modifyPeers (enrolled_modifyPeers henr),
              peer_modifyPeer_self (peer_modifyPeer_self hpeer), .failed hfail hsame⟩

/-! ## Soundness is kept -/

theorem Sound.init : Sound Tracker.init where
  registry := fun _ _ h => by cases h
  quiet := fun h => by cases h
  port := fun h => by cases h
  born := by
    rintro f p ⟨x, hx, -⟩
    cases hx

theorem Quiet.mono {p₀ : Addr} (hquiet : Quiet st e q) (henr : Enrolled p₀ l st st') (he : e ≠ p₀) :
    Quiet st' e q := by
  refine ⟨hquiet.port, hquiet.seed, hquiet.leech, fun f hf => ?_⟩
  rcases henr.hasPeer.1 hf with hf | ⟨rfl, -⟩
  · exact hquiet.unlisted f hf
  · exact he rfl

theorem Sound.of_unchanged (hs : Sound st) (henr : Enrolled p l st st') (hq : st.peer p = some q)
    (hun : Unchanged p st st') : Sound st' := by
  obtain ⟨q', hq', hseed, hleech, hport, hann⟩ := hun.peer q hq
  have hq' : st'.peer p = some q' := hq'
  refine ⟨henr.registry, ?_, ?_, ?_⟩
  · intro e qe hqe hno
    by_cases he : e = p
    · subst he
      obtain rfl := Option.some.inj (hq'.symm.trans hqe)
      have hquiet := hs.quiet hq (hann.symm.trans hno)
      exact ⟨hport.trans hquiet.port, fun k => (hseed k).trans (hquiet.seed k),
        fun k => (hleech k).trans (hquiet.leech k), fun f hf => hquiet.unlisted f (hun.hasPeer.1 hf)⟩
    · rw [henr.others he] at hqe
      exact (hs.quiet hqe hno).mono henr he
  · intro e qe hqe hyes
    by_cases he : e = p
    · subst he
      obtain rfl := Option.some.inj (hq'.symm.trans hqe)
      rw [hport]
      exact hs.port hq (hann.symm.trans hyes)
    · rw [henr.others he] at hqe
      exact hs.port hqe hyes
  · intro f e hf
    rw [henr.fresh]
    exact hs.born (hun.hasPeer.1 hf)

theorem Sound.of_announced (hs : Sound st) (henr : Enrolled p l st st') (hq : st.peer p = some q)
    (hq' : st'.peer p = some q') (hann : q'.announced = true) (hport : PortOk q'.listeningPort) :
    Sound st' := by
  refine ⟨henr.registry, ?_, ?_, ?_⟩
  · intro e qe hqe hno
    by_cases he : e = p
    · subst he
      obtain rfl := Option.some.inj (hq'.symm.trans hqe)
      rw [hann] at hno
      cases hno
    · rw [henr.others he] at hqe
      exact (hs.quiet hqe hno).mono henr he
  · intro e qe hqe hyes
    by_cases he : e = p
    · subst he
      obtain rfl := Option.some.inj (hq'.symm.trans hqe)
      exact hport
    · rw [henr.others he] at hqe
      exact hs.port hqe hyes
  · intro f e hf
    rw [henr.fresh]
    rcases henr.hasPeer.1 hf with hf | ⟨rfl, -⟩
    · exact hs.born hf
    · exact Heap.lt_fresh_of_read hq

theorem Sound.connect {remoteIP : CTracker.InAddr} (hs : Sound st)
    (hstep : Step st (.connect remoteIP) st') : Sound st' := by
  obtain rfl := Option.some.inj hstep
  have hpeer : ∀ e, ({ st with peerHeap := st.peerHeap.alloc (newPeer remoteIP) } : Tracker).peer e =
      if e = st.peerHeap.fresh then some (newPeer remoteIP) else st.peer e := fun e => Heap.read_alloc _ _ _
  refine ⟨hs.registry, ?_, ?_, ?_⟩
  · intro e q hq hno
    rw [hpeer] at hq
    split at hq
    · next he =>
        obtain rfl := Option.some.inj hq
        subst he
        exact ⟨rfl, fun _ => rfl, fun _ => rfl, fun f hf => absurd (hs.born hf) (Nat.lt_irrefl _)⟩
    · obtain ⟨hport, hseed, hleech, hun⟩ := hs.quiet hq hno
      exact ⟨hport, hseed, hleech, hun⟩
  · intro e q hq hyes
    rw [hpeer] at hq
    split at hq
    · obtain rfl := Option.some.inj hq
      exact absurd hyes Bool.false_ne_true
    · exact hs.port hq hyes
  · intro f e hf
    rw [Heap.fresh_alloc]
    exact Nat.lt_succ_of_lt (hs.born hf)

theorem Sound.disconnect (hs : Sound st) (hstep : Step st (.disconnect p) st') : Sound st' := by
  obtain ⟨q, -, hpure⟩ := Option.bind_eq_some_iff.1 hstep
  obtain rfl := Option.some.inj hpure
  have hpeer : ∀ {e q}, ({ st with peerHeap := st.peerHeap.free p } : Tracker).peer e = some q →
      st.peer e = some q := by
    intro e q hq
    rw [Tracker.peer, Heap.read_free] at hq
    split at hq
    · cases hq
    · exact hq
  refine ⟨hs.registry, ?_, fun hq hyes => hs.port (hpeer hq) hyes, ?_⟩
  · intro e q hq hno
    obtain ⟨hport, hseed, hleech, hun⟩ := hs.quiet (hpeer hq) hno
    exact ⟨hport, hseed, hleech, hun⟩
  · intro f e hf
    rw [Heap.fresh_free]
    exact hs.born hf

/-! ## Runs -/

theorem step_request (h : Step st (.request p line) st') :
    ∃ q reply, st.peer p = some q ∧ handleLine st p line = some (st', reply) := by
  obtain ⟨q, hq, hline⟩ := Option.bind_eq_some_iff.1 h
  split at hline
  · cases hline
  · obtain ⟨⟨st₁, reply⟩, hhandle, hpure⟩ := Option.bind_eq_some_iff.1 hline
    obtain rfl := Option.some.inj hpure
    exact ⟨q, reply, hq, hhandle⟩

theorem CompletedAnnounce.cons {x : Tracker × Event} (h' : CompletedAnnounce h p) :
    CompletedAnnounce (x :: h) p := by
  obtain ⟨st, line, st', cls, argument, port, hmem, hrest⟩ := h'
  exact ⟨st, line, st', cls, argument, port, List.mem_cons_of_mem _ hmem, hrest⟩

/-- In every run, a peer that counts as announced has completed an announce. -/
theorem completedAnnounce_of_announced (hrun : TrackerRun h st) :
    Registry st ∧ ∀ p q, st.peer p = some q → q.announced = true → CompletedAnnounce h p := by
  refine Run.invariant_history (I := fun h st => Registry st ∧
    ∀ p q, st.peer p = some q → q.announced = true → CompletedAnnounce h p) ?_ ?_ hrun
  · exact ⟨Sound.init.registry, fun p q hq => by cases hq⟩
  rintro h st ev st' - ⟨hreg, hcomp⟩ hstep
  -- Only a request of the peer itself makes it announced.
  cases ev with
  | connect remoteIP =>
      obtain rfl := Option.some.inj hstep
      refine ⟨hreg, fun p q hq hann => ?_⟩
      rw [Tracker.peer, Heap.read_alloc] at hq
      split at hq
      · obtain rfl := Option.some.inj hq
        exact absurd hann Bool.false_ne_true
      · exact (hcomp p q hq hann).cons
  | disconnect p =>
      obtain ⟨q₀, -, hpure⟩ := Option.bind_eq_some_iff.1 hstep
      obtain rfl := Option.some.inj hpure
      refine ⟨hreg, fun e q hq hann => ?_⟩
      rw [Tracker.peer, Heap.read_free] at hq
      split at hq
      · cases hq
      · exact (hcomp e q hq hann).cons
  | request p line =>
      obtain ⟨q, reply, hq, hhandle⟩ := step_request hstep
      obtain ⟨l, q', henr, hq', heff⟩ := handleLine_effect hreg hq hhandle
      refine ⟨henr.registry, fun e qe hqe hann => ?_⟩
      by_cases he : e = p
      · subst he
        obtain rfl := Option.some.inj (hq'.symm.trans hqe)
        cases heff with
        | announced hreply hd hlisten hport _ _ =>
            exact ⟨st, line, st', _, _, _, List.mem_cons_self, hreply, hd, hlisten, hport,
              listenPort_ok hport⟩
        | updated hbefore _ _ => exact (hcomp e q hq hbefore).cons
        | failed _ hsame => exact (hcomp e q hq (hsame.symm.trans hann)).cons
        | other _ hsame => exact (hcomp e q hq (hsame.symm.trans hann)).cons
      · rw [henr.others he] at hqe
        exact (hcomp e qe hqe hann).cons

/-- A reply has the endpoints of the peers of the file, but for the one that asks. -/
theorem peerEndpoints_eq {peers : List Addr} {endpoints : List CString}
    (h : peers.mapM (fun e => (st.peer e).map Peer.toString) = some endpoints) :
    ∃ l : List (Addr × Peer), endpoints = l.map (fun e => e.2.toString) ∧
      ∀ e ∈ l, e.1 ∈ peers ∧ st.peer e.1 = some e.2 := by
  -- The peer that asks is passed over.
  induction peers generalizing endpoints with
  | nil =>
      obtain rfl := Option.some.inj h
      exact ⟨[], rfl, by simp⟩
  | cons a peers ih =>
      rw [List.mapM_cons, Option.bind_eq_bind, Option.bind_eq_some_iff] at h
      obtain ⟨t, ht, h⟩ := h
      obtain ⟨ts, hts, hpure⟩ := Option.bind_eq_some_iff.1 h
      obtain rfl := Option.some.inj hpure
      obtain ⟨q, hq, rfl⟩ := Option.map_eq_some_iff.1 ht
      obtain ⟨l, rfl, hl⟩ := ih hts
      refine ⟨(a, q) :: l, rfl, fun e he => ?_⟩
      rcases List.mem_cons.1 he with rfl | he
      · exact ⟨List.mem_cons_self, hq⟩
      · exact ⟨List.mem_cons_of_mem _ (hl e he).1, (hl e he).2⟩

theorem Sound.endpointsAnnounced (hs : Sound st)
    (hcomp : ∀ p q, st.peer p = some q → q.announced = true → CompletedAnnounce h p) :
    EndpointsAnnounced h st := by
  intro p ss st' reply hget
  obtain ⟨q, hq, hbody⟩ := Option.bind_eq_some_iff.1 hget
  split at hbody
  · cases (Prod.mk.inj (Option.some.inj hbody)).2
  · simp only [Option.bind_eq_bind, Option.bind_eq_some_iff] at hbody
    obtain ⟨f, hf, x, hx, text, htext, hpure⟩ := hbody
    obtain rfl := Except.ok.inj (Prod.mk.inj (Option.some.inj hpure)).2
    obtain ⟨endpoints, hends, hpure'⟩ := Option.bind_eq_some_iff.1 htext
    obtain rfl := Option.some.inj hpure'
    obtain ⟨l, rfl, hl⟩ := peerEndpoints_eq hends
    refine ⟨x.hash, l, rfl, fun e he => ?_⟩
    obtain ⟨hmem, hpeer⟩ := hl e he
    have hlisted : st.HasPeer f e.1 := ⟨x, hx, (List.mem_filter.1 hmem).1⟩
    have hann : e.2.announced = true := by
      by_contra hno
      exact (hs.quiet hpeer (by simpa using hno)).unlisted f hlisted
    exact ⟨hpeer, hs.port hpeer hann, hcomp e.1 e.2 hpeer hann⟩

theorem Sound.request (hs : Sound st) (hq : st.peer p = some q) {reply : Option CString}
    (h : handleLine st p line = some (st', reply)) (hfail : Fails st p line → Unchanged p st st') :
    Sound st' := by
  obtain ⟨l, q', henr, hq', heff⟩ := handleLine_effect hs.registry hq h
  cases heff with
  | announced _ _ _ _ hann hok => exact hs.of_announced henr hq hq' hann hok
  | updated hbefore hann hport =>
      refine hs.of_announced henr hq hq' hann ?_
      rw [hport]
      exact hs.port hq hbefore
  | failed hf _ => exact hs.of_unchanged henr hq (hfail hf)
  | other hun _ => exact hs.of_unchanged henr hq hun

theorem harmless_of_not_fails {reply : Option CString}
    (h : handleLine st p line = some (st', reply)) (hfail : ¬ Fails st p line) :
    Harmless [] st (.request p line) := by
  rintro q₀ hq₀ ⟨announce, cls⟩ hd hann hgoes
  exfalso
  have hd : declaredOf line = some (announce, cls) := hd
  obtain ⟨ss, -, ⟨st₁, -, -, rfl⟩ | ⟨st₁, what, -, -, rfl⟩⟩ := handleLine_declared h hd
  · obtain ⟨_, _, -, -, hfold, hall, -⟩ := handleLine_ok h hd
    exact hgoes ⟨fine_of_foldlM hfold, hall⟩
  · exact hfail ⟨by simp [hd], _, _, h⟩

theorem failureUnchanged_iff_harmless (hs : Sound st) (hstep : Step st (.request p line) st') :
    FailureUnchanged ((st, .request p line) :: h) st' ↔ Harmless h st (.request p line) := by
  obtain ⟨q, reply, hq, hhandle⟩ := step_request hstep
  by_cases hfail : Fails st p line
  · obtain ⟨hne, st₁, what, herr⟩ := hfail
    obtain ⟨rfl, rfl⟩ := Prod.mk.inj (Option.some.inj (hhandle.symm.trans herr))
    obtain ⟨⟨announce, cls⟩, hd⟩ := Option.ne_none_iff_exists'.1 hne
    have hiff := failure_unchanged_iff hs herr hd
    exact ⟨fun hun => hiff.1 (hun ⟨hne, _, _, herr⟩), fun hharm _ => hiff.2 hharm⟩
  · exact ⟨fun _ => harmless_of_not_fails hhandle hfail, fun _ hf => absurd hf hfail⟩

/-- Failing requests leave no trace in any state of a run exactly if each of them is harmless. -/
theorem failuresLeaveNoTrace_iff (hrun : TrackerRun h st) :
    Along FailuresLeaveNoTrace h st ↔ StepsMeet Harmless h := by
  refine Run.along_iff_stepsMeet_of_invariant (I := Sound) ⟨trivial, ?_⟩ Sound.init ?_ hrun
  · exact Sound.init.endpointsAnnounced fun p q hq => by cases hq
  intro h st ev st' hr hs _ hstep
  have hcomp := (completedAnnounce_of_announced (hr.next hstep)).2
  cases ev with
  | connect remoteIP =>
      have hs' := hs.connect hstep
      exact ⟨⟨fun _ => trivial, fun _ => ⟨trivial, hs'.endpointsAnnounced hcomp⟩⟩, fun _ => hs'⟩
  | disconnect p =>
      have hs' := hs.disconnect hstep
      exact ⟨⟨fun _ => trivial, fun _ => ⟨trivial, hs'.endpointsAnnounced hcomp⟩⟩, fun _ => hs'⟩
  | request p line =>
      have hiff := failureUnchanged_iff_harmless (h := h) hs hstep
      have hkeep : Harmless h st (.request p line) → Sound st' := by
        intro hharm
        obtain ⟨q, reply, hq, hhandle⟩ := step_request hstep
        exact hs.request hq hhandle (hiff.2 hharm)
      exact ⟨⟨fun htrace => hiff.1 htrace.1,
        fun hharm => ⟨hiff.2 hharm, (hkeep hharm).endpointsAnnounced hcomp⟩⟩, hkeep⟩

/-- Failures of all kinds that leave no trace, and a completed announce. -/
def harmlessSession : List Event :=
  [.connect ⟨127, 0, 0, 1⟩, .request 0 "announce listen 0".toList, .request 0 "announce seed [a b] foo".toList,
    .request 0 "announce listen 5000 seed [film 10 5 k] leech []".toList, .request 0 "update foo".toList,
    .request 0 "announce listen 6000".toList]

theorem failuresLeaveNoTrace_iff_harmlessSession : ∃ h st, TrackerRun h st ∧
    Along FailuresLeaveNoTrace h st ∧ h.length = 6 := by
  obtain ⟨h, st, hrun, hharm, hlen⟩ := exists_run_of_replay harmlessSession
    (P := fun h _ => StepsMeet Harmless h ∧ h.length = 6) (by decide)
  exact ⟨h, st, hrun, (failuresLeaveNoTrace_iff hrun).2 hharm, hlen⟩

/-- An announce that is refused at its second clause. -/
def refusedAnnounce : CString := "announce listen 5000 foo".toList

theorem refused_announce_sets_port : ∃ h st, TrackerRun h st ∧ ¬ Along FailuresLeaveNoTrace h st := by
  obtain ⟨h, st, hrun, hlast⟩ : ∃ h st, TrackerRun h st ∧ h.head?.any (fun x =>
      x.2 = .request 0 refusedAnnounce ∧ declaredOf refusedAnnounce ≠ none ∧
      (handleLine x.1 0 refusedAnnounce).map Prod.snd =
        some (some (errorNotice (unexpectedToken "foo".toList))) ∧
      (x.1.peer 0).map Peer.listeningPort = some 0 ∧ (st.peer 0).map Peer.listeningPort = some 5000) := by
    refine exists_run_of_replay [.connect ⟨127, 0, 0, 1⟩, .request 0 refusedAnnounce] ?_
    decide
  refine ⟨h, st, hrun, fun halong => ?_⟩
  obtain ⟨⟨st₀, ev⟩, hhead, hx⟩ := (Option.any_eq_true _ _).1 hlast
  obtain ⟨rfl, hd, hreply, hbefore, hafter⟩ := of_decide_eq_true hx
  obtain ⟨rest, rfl⟩ : ∃ rest, h = (st₀, .request 0 refusedAnnounce) :: rest := by
    cases h with
    | nil => cases hhead
    | cons x rest => exact ⟨rest, by rw [Option.some.inj hhead]⟩
  obtain ⟨⟨st₁, _⟩, hline, rfl⟩ := Option.map_eq_some_iff.1 hreply
  obtain ⟨q, hq, hport⟩ := Option.map_eq_some_iff.1 hbefore
  have hun : Unchanged 0 st₀ st := halong.last.1 ⟨hd, st₁, _, hline⟩
  obtain ⟨q', hq', -, -, hsame, -⟩ := hun.peer q hq
  rw [Option.mem_def.1 hq', Option.map_some, hsame, hport] at hafter
  cases Option.some.inj hafter

end CppTracker
end Raiezau
