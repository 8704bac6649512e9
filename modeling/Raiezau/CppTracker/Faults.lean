import Raiezau.CppTracker.Criterion
import Raiezau.CppTracker.Directory
import Raiezau.CppTracker.Kept
import Raiezau.CppTracker.Totality

/-!
# Faults — which requests bring the C++ tracker down

A file object is never deleted, so `announce`, `update` and `look` end with a reply or an exception whatever the line
is.  A `Peer` is deleted when its socket closes, and the files keep the pointer.  `getfile` follows it, and for an
unknown hash it prints the hash of a null pointer.
-/

namespace Raiezau
namespace CppTracker

open Memory CUtil Machine Text

variable {st st' : Tracker} {p f a : Addr} {q : Peer} {ss : IStream} {announce : Bool} {line : CString}
  {h : TrackerHistory}

/-! ## Announces and updates -/

theorem parseAnnounceLeech_total (hreg : Registry st) (p : Addr) (text : CString) :
    ∃ st', parseAnnounceLeech st p text = some st' := by
  obtain ⟨st', hst'⟩ := announceClause_total hreg p (c := .leech text) trivial
  obtain ⟨st₁, hparse, -⟩ := Option.map_eq_some_iff.1 hst'
  exact ⟨st₁, hparse⟩

/-- A clause is applied or throws. -/
theorem applyClause_total (hreg : Registry st) (announce : Bool) (p : Addr) (c : Clause) :
    ∃ st' r, applyClause announce p st c = some (st', r) ∧ Registry st' := by
  obtain ⟨⟨st', r⟩, happly⟩ : ∃ x, applyClause announce p st c = some x := by
    cases announce with
    | true =>
        by_cases hc : c.Fine true
        · obtain ⟨st', hst'⟩ := announceClause_total hreg p hc
          exact ⟨_, hst'⟩
        · cases c with
          | listen argument =>
              rw [applyClause, if_pos rfl, announceClause]
              split <;> exact ⟨_, rfl⟩
          | seed text => exact ⟨_, if_pos fun hcount => hc fun _ => hcount⟩
          | leech text => exact absurd trivial hc
          | unexpected keyword => exact ⟨_, rfl⟩
    | false =>
        have hleech : ∀ text, ∃ x, (parseAnnounceLeech st p text).map
            (fun st => (st, (.ok () : Except CString Unit))) = some x := by
          intro text
          obtain ⟨st', hst'⟩ := parseAnnounceLeech_total hreg p text
          exact ⟨_, by rw [hst', Option.map_some]⟩
        cases c with
        | listen argument => exact ⟨_, rfl⟩
        | seed text => exact hleech text
        | leech text => exact hleech text
        | unexpected keyword => exact ⟨_, rfl⟩
  refine ⟨st', r, happly, ?_⟩
  cases r with
  | ok u => exact (directory_applyClause hreg happly).1
  | error what =>
      obtain ⟨-, rfl | ⟨-, rfl⟩⟩ := applyClause_error happly
      · exact hreg
      · exact (enrolled_modifyPeer hreg p _).registry

theorem clauseLoop_total (hreg : Registry st) (announce : Bool) (p : Addr) (n : Nat) (s : Scan) (seen : Seen) :
    ∃ x, clauseLoop (applyClause announce p) announce n st s seen = some x := by
  induction n generalizing st s seen with
  | zero => exact ⟨_, rfl⟩
  | succ n ih =>
      obtain ⟨st₁, r, happly, hreg₁⟩ := applyClause_total hreg announce p (readClause announce s).2
      rw [clauseLoop_succ, happly]
      cases r with
      | ok u => exact ih hreg₁ _ _
      | error what => exact ⟨_, rfl⟩

theorem declareWith_total (hreg : Registry st) (hq : st.peer p = some q) (announce : Bool) (ss : IStream) :
    ∃ x, declareWith announce st p ss = some x := by
  rw [declareWith, hq, Option.bind_eq_bind, Option.bind_some]
  split
  · exact ⟨_, rfl⟩
  · obtain ⟨⟨st₁, r⟩, hloop⟩ :=
      clauseLoop_total hreg announce p (clauseCount announce) (Scan.start ss) Seen.none
    rw [hloop, Option.bind_eq_bind, Option.bind_some]
    cases r with
    | error what => exact ⟨_, rfl⟩
    | ok seen =>
        dsimp only
        split <;> exact ⟨_, rfl⟩

/-! ## Looks -/

/-- The predicate of a criterion takes the file or throws. -/
theorem applyCriterion_total {s : PtrSet} (hs : AllFiles st s) (c : Criterion) (value : CString) :
    (∃ what, c.applyCriterion st value s = throw what) ∨
      ∃ s', c.applyCriterion st value s = pure s' ∧ AllFiles st s' := by
  refine foldlM_throws_or (I := AllFiles st) (fun {r f} hf hr => ?_) (fun f hf => by cases hf)
  obtain ⟨x, hx⟩ := hs f hf
  cases hp : c.predicate x ((value.drop ((findSub c.delim value).getD 0 + c.delim.length)).takeWhile
      fun ch => ch ≠ '"') with
  | error what => exact .inl ⟨what, visit_throws hx hp⟩
  | ok keep =>
      refine .inr ⟨_, visit_ok hx hp, ?_⟩
      split
      · intro g hg
        rcases List.mem_append.1 hg with hg | hg
        · exact hr g hg
        · obtain rfl := List.mem_singleton.1 hg
          exact ⟨x, hx⟩
      · exact hr

theorem parseCriterion_total {s : PtrSet} (hs : AllFiles st s) (criterion : CString) :
    (∃ what, parseCriterion st criterion s = throw what) ∨
      ∃ s', parseCriterion st criterion s = pure s' ∧ AllFiles st s' := by
  unfold parseCriterion
  split
  · next c _ => exact applyCriterion_total hs c criterion
  · exact .inr ⟨[], rfl, fun f hf => by cases hf⟩

theorem parseLook_total (hlive : AllFiles st st.fileSet) (look : CString) :
    ∃ r, (parseLook st look).run = some r := by
  have hset : (∃ what, lookSet st look = throw what) ∨ ∃ s, lookSet st look = pure s ∧ AllFiles st s :=
    foldlM_throws_or (fun _ hs => parseCriterion_total hs _) hlive
  rcases hset with ⟨what, hset⟩ | ⟨s, hset, hs⟩
  · rw [parseLook, hset]
    exact ⟨.error what, rfl⟩
  · obtain ⟨xs, hxs, -⟩ := mapM_total hs
    rw [parseLook, hset, pure_bind, fileListString, hxs]
    exact ⟨_, rfl⟩

theorem handleLook_total (hlive : AllFiles st st.fileSet) (hq : st.peer p = some q) (ss : IStream) :
    ∃ x, handleLook st p ss = some x := by
  rw [handleLook, hq, Option.bind_eq_bind, Option.bind_some]
  split
  · exact ⟨_, rfl⟩
  · obtain ⟨r, hr⟩ := parseLook_total hlive (Scan.start ss).readBrackets.argument
    dsimp only
    rw [hr]
    exact ⟨(st, r), rfl⟩

/-! ## Asking for a file -/

/-- The peers of a file, but for the one that asks, if they are all there. -/
theorem peerEndpoints_isSome_iff {peers : PtrSet} : (peerEndpoints st p peers).isSome ↔
    ∀ a ∈ peers, a ≠ p → st.peer a ≠ none := by
  unfold peerEndpoints
  constructor
  · intro hsome a ha hne hnone
    obtain ⟨ws, hws⟩ := Option.isSome_iff_exists.1 hsome
    obtain ⟨w, -, hw⟩ := exists_of_mem_left (forall₂_of_mapM hws) (List.mem_filter.2 ⟨ha, decide_eq_true hne⟩)
    rw [hnone] at hw
    cases hw
  · intro hall
    have htexts : ∀ a ∈ peers.filter fun a => a ≠ p, ∃ w, (st.peer a).map Peer.toString = some w := by
      intro a ha
      obtain ⟨ha, hne⟩ := List.mem_filter.1 ha
      obtain ⟨r, hr⟩ := Option.ne_none_iff_exists'.1 (hall a ha (of_decide_eq_true hne))
      exact ⟨r.toString, by rw [hr, Option.map_some]⟩
    obtain ⟨ws, hws, -⟩ := mapM_total htexts
    exact Option.isSome_iff_exists.2 ⟨ws, hws⟩

theorem peerListString_isSome_iff {x : File} : (peerListString st p x).isSome ↔
    ∀ a ∈ x.peers, a ≠ p → st.peer a ≠ none := by
  rw [← peerEndpoints_isSome_iff, peerListString]
  cases peerEndpoints st p x.peers <;> exact Iff.rfl

theorem handleGetfile_eq_none_iff (hreg : Registry st) (hq : st.peer p = some q) : handleGetfile st p ss = none ↔
    q.announced = true ∧ ∀ l ∈ st.directory (ss.readWord []).2, ∃ a ∈ l.peers, a ≠ p ∧ st.peer a = none := by
  rw [handleGetfile, hq, Option.bind_eq_bind, Option.bind_some]
  cases hann : q.announced with
  | false => exact iff_of_false (by rintro ⟨⟩) fun hcon => Bool.false_ne_true hcon.1
  | true =>
      rw [Bool.not_true, if_neg Bool.false_ne_true]
      dsimp only
      generalize (ss.readWord []).2 = k
      simp only [true_and]
      cases hk : st.fileMap.get k with
      | none =>
          refine iff_of_true rfl fun l hl => ?_
          rw [directory_of_none hk] at hl
          cases hl
      | some f =>
          obtain ⟨x, hx, -⟩ := hreg hk
          have hsome : (peerListString st p x).isSome ↔ ∀ a ∈ x.peers, a ≠ p → st.peer a ≠ none :=
            peerListString_isSome_iff
          simp only [directory_of_get hk hx, hx, Option.bind_eq_bind, Option.bind_some, Option.mem_def,
            Option.some.injEq, forall_eq', Set.mem_ofPred_eq]
          cases hlist : peerListString st p x with
          | none =>
              rw [hlist] at hsome
              simpa using hsome
          | some reply =>
              rw [hlist] at hsome
              simpa using hsome

/-! ## One request -/

theorem handleLine_of_dispatch {handler : Handler} (hdisp : dispatch line = some (handler, ss)) :
    handleLine st p line = none ↔ handler.call st p ss = none := by
  have hkeyword : ((IStream.ofString line).readWord []).2 ≠ [] := by
    intro hnil
    have hnone : handlerOf [] = none := by decide
    simp [dispatch, hnil, hnone] at hdisp
  simp only [handleLine, if_neg hkeyword, hdisp]
  split
  · next hcall => exact iff_of_true rfl hcall
  · next hcall => exact iff_of_false (Option.some_ne_none _) (by rw [hcall]; exact Option.some_ne_none _)
  · next hcall => exact iff_of_false (Option.some_ne_none _) (by rw [hcall]; exact Option.some_ne_none _)

/-- A line with no handler is answered, or passed over. -/
theorem handleLine_of_no_dispatch (hdisp : dispatch line = none) : handleLine st p line ≠ none := by
  unfold handleLine
  dsimp only
  split
  · exact Option.some_ne_none _
  · rw [hdisp]
    exact Option.some_ne_none _

theorem call_eq_none_iff {handler : Handler} (hreg : Registry st) (hlive : AllFiles st st.fileSet)
    (hq : st.peer p = some q) : handler.call st p ss = none ↔ handler = .getfile ∧ handleGetfile st p ss = none := by
  cases handler with
  | announce =>
      obtain ⟨x, hx⟩ := declareWith_total hreg hq true ss
      rw [Handler.call, handleAnnounce_eq, hx]
      exact iff_of_false (Option.some_ne_none _) (by simp)
  | update =>
      obtain ⟨x, hx⟩ := declareWith_total hreg hq false ss
      rw [Handler.call, handleUpdate_eq, hx]
      exact iff_of_false (Option.some_ne_none _) (by simp)
  | look =>
      obtain ⟨x, hx⟩ := handleLook_total hlive hq ss
      rw [Handler.call, hx]
      exact iff_of_false (Option.some_ne_none _) (by simp)
  | getfile => exact (and_iff_right rfl).symm

theorem handleLine_eq_none_iff (hreg : Registry st) (hlive : AllFiles st st.fileSet) (hq : st.peer p = some q) :
    handleLine st p line = none ↔ q.announced = true ∧ ∃ ss, dispatch line = some (.getfile, ss) ∧
      ∀ l ∈ st.directory (ss.readWord []).2, ∃ a ∈ l.peers, a ≠ p ∧ st.peer a = none := by
  cases hdisp : dispatch line with
  | none =>
      refine iff_of_false (handleLine_of_no_dispatch hdisp) ?_
      rintro ⟨-, ss, hcon, -⟩
      cases hcon
  | some x =>
      obtain ⟨handler, ss⟩ := x
      rw [handleLine_of_dispatch hdisp, call_eq_none_iff hreg hlive hq, handleGetfile_eq_none_iff hreg hq]
      constructor
      · rintro ⟨rfl, hann, hgone⟩
        exact ⟨hann, ss, rfl, hgone⟩
      · rintro ⟨hann, ss', hsame, hgone⟩
        obtain ⟨rfl, rfl⟩ := Prod.mk.inj (Option.some.inj hsame)
        exact ⟨rfl, hann, hgone⟩

/-! ## Who has left -/

/-- The peer has disconnected. -/
def Left (h : TrackerHistory) (a : Addr) : Prop := ∃ x ∈ h, x.2 = .disconnect a

/-- The tracker has the peers that have not left, and lists nobody who never came. -/
structure Attendance (h : TrackerHistory) (st : Tracker) : Prop where
  here : ∀ {a}, a < st.peerHeap.fresh → (st.peer a = none ↔ Left h a)
  left : ∀ {a}, Left h a → a < st.peerHeap.fresh
  born : ∀ {f x a}, st.file f = some x → a ∈ x.peers → a < st.peerHeap.fresh

theorem left_cons {ev : Event} : Left ((st, ev) :: h) a ↔ ev = .disconnect a ∨ Left h a := by
  simp [Left]

theorem left_cons_of_ne {ev : Event} (hne : ∀ a, ev ≠ .disconnect a) : Left ((st, ev) :: h) a ↔ Left h a :=
  left_cons.trans (or_iff_right (hne a))

/-- A request changes the records of peers, and lists the one that asks. -/
theorem kept_attendance (st₀ : Tracker) (hp : p < st₀.peerHeap.fresh) : Kept (fun st =>
    st.peerHeap.fresh = st₀.peerHeap.fresh ∧ (∀ a, st.peer a = none ↔ st₀.peer a = none) ∧
      ∀ f x a, st.file f = some x → a ∈ x.peers → a < st₀.peerHeap.fresh) line p where
  modifyPeer := by
    rintro st u ⟨hfresh, hhere, hborn⟩
    refine ⟨(Heap.fresh_modify _ _ _).trans hfresh, fun a => ?_, hborn⟩
    rw [peer_modifyPeer, ← hhere]
    split
    · exact Option.map_eq_none_iff
    · exact Iff.rfl
  addPeer := by
    rintro st st' f ⟨hfresh, hhere, hborn⟩ h
    obtain ⟨-, -, hpeers, hfile⟩ := addPeer_inv h
    refine ⟨by rw [hpeers, hfresh], fun a => by rw [Tracker.peer, hpeers]; exact hhere a, fun g y a hy ha => ?_⟩
    rw [hfile] at hy
    split at hy
    · obtain ⟨x, hx, rfl⟩ := Option.map_eq_some_iff.1 hy
      rcases PtrSet.mem_insert.1 ha with rfl | ha
      · exact hp
      · exact hborn g x a hx ha
    · exact hborn g y a hy ha
  registerFile := by
    rintro st x ⟨hfresh, hhere, hborn⟩ hx - -
    refine ⟨hfresh, hhere, fun g y a hy ha => ?_⟩
    rw [FileMgr.file_registerFile] at hy
    split at hy
    · obtain rfl := Option.some.inj hy
      rw [hx] at ha
      cases ha
    · exact hborn g y a hy ha

theorem attendance_of_run (hrun : TrackerRun h st) : Attendance h st := by
  refine Run.invariant_history (I := Attendance) ⟨?_, ?_, ?_⟩ ?_ hrun
  · exact fun ha => absurd ha (Nat.not_lt_zero _)
  · rintro a ⟨x, hx, -⟩
    cases hx
  · exact fun hx => by cases hx
  rintro h st ev st' - hatt hstep
  cases ev with
  | connect remoteIP =>
      obtain rfl := Option.some.inj hstep
      have hfresh : (st.peerHeap.alloc (newPeer remoteIP)).fresh = st.peerHeap.fresh + 1 := Heap.fresh_alloc _ _
      have hsame : ∀ a, Left ((st, .connect remoteIP) :: h) a ↔ Left h a := fun a => left_cons_of_ne (by simp)
      refine ⟨fun {a} ha => ?_, fun {a} hleft => ?_, fun hx ha => ?_⟩
      · rw [hsame, Tracker.peer, Heap.read_alloc]
        split
        · next heq =>
            -- The address is new, so nobody who has left had it.
            exact iff_of_false (Option.some_ne_none _) fun hleft => Nat.lt_irrefl _ (heq ▸ hatt.left hleft)
        · next hne =>
            have hold : a < st.peerHeap.fresh := by
              rw [hfresh] at ha
              exact Nat.lt_of_le_of_ne (Nat.le_of_lt_succ ha) hne
            exact hatt.here hold
      · rw [hfresh]
        exact Nat.lt_succ_of_lt (hatt.left ((hsame a).1 hleft))
      · rw [hfresh]
        exact Nat.lt_succ_of_lt (hatt.born hx ha)
  | disconnect e =>
      obtain ⟨q, hq, hpure⟩ := Option.bind_eq_some_iff.1 hstep
      obtain rfl := Option.some.inj hpure
      have hfresh : (st.peerHeap.free e).fresh = st.peerHeap.fresh := Heap.fresh_free _ _
      refine ⟨fun {a} ha => ?_, fun {a} hleft => ?_, fun hx ha => hfresh ▸ hatt.born hx ha⟩
      · rw [left_cons, Tracker.peer, Heap.read_free]
        split
        · next heq => exact iff_of_true rfl (.inl (heq ▸ rfl))
        · next hne =>
            refine (hatt.here (hfresh ▸ ha)).trans ⟨.inr, fun hl => hl.resolve_left fun hcon => hne ?_⟩
            exact (Event.disconnect.inj hcon).symm
      · rw [hfresh]
        rcases left_cons.1 hleft with hcon | hleft
        · obtain rfl := Event.disconnect.inj hcon
          exact Heap.lt_fresh_of_read hq
        · exact hatt.left hleft
  | request p line =>
      obtain ⟨q, reply, hq, hhandle⟩ := step_request hstep
      have hkept : Kept _ line p := kept_attendance st (Heap.lt_fresh_of_read hq)
      obtain ⟨hfresh, hhere, hborn⟩ :=
        hkept.handleLine ⟨rfl, fun a => Iff.rfl, fun f x a hx ha => hatt.born hx ha⟩ hhandle
      have hsame : ∀ a, Left ((st, .request p line) :: h) a ↔ Left h a := fun a => left_cons_of_ne (by simp)
      refine ⟨fun {a} ha => ?_, fun {a} hl => ?_, fun {g y a} hy ha => ?_⟩
      · rw [hhere, hsame]
        exact hatt.here (hfresh ▸ ha)
      · rw [hfresh]
        exact hatt.left ((hsame a).1 hl)
      · rw [hfresh]
        exact hborn g y a hy ha

/-! ## Every run -/

theorem kept_mapped : Kept FileMgr.Mapped line p where
  modifyPeer := fun u hI => ⟨hI.registry, hI.listed, hI.live⟩
  addPeer := by
    intro st st' f hI h
    obtain ⟨hmap, hset, -, hfile⟩ := addPeer_inv h
    have hold : ∀ {g x}, st.file g = some x → ∃ y, st'.file g = some y ∧ y.hash = x.hash := by
      intro g x hx
      rw [hfile, hx]
      split
      · exact ⟨_, rfl, rfl⟩
      · exact ⟨x, rfl, rfl⟩
    refine ⟨fun k g hk => ?_, fun hk => ?_, fun hg => ?_⟩
    · rw [hmap] at hk
      obtain ⟨x, hx, rfl⟩ := hI.registry hk
      exact hold hx
    · rw [hmap] at hk
      exact hset ▸ hI.listed hk
    · rw [hset] at hg
      obtain ⟨x, hx⟩ := hI.live hg
      obtain ⟨y, hy, -⟩ := hold hx
      exact ⟨y, hy⟩
  registerFile := fun hI _ _ _ => hI.registerFile _

theorem mapped_of_run (hrun : TrackerRun h st) : FileMgr.Mapped st := by
  refine Run.invariant (I := FileMgr.Mapped) FileMgr.mapped_init ?_ hrun
  intro st ev st' hI hstep
  cases ev with
  | connect remoteIP =>
      obtain rfl := Option.some.inj hstep
      exact ⟨hI.registry, hI.listed, hI.live⟩
  | disconnect e =>
      obtain ⟨q, -, hpure⟩ := Option.bind_eq_some_iff.1 hstep
      obtain rfl := Option.some.inj hpure
      exact ⟨hI.registry, hI.listed, hI.live⟩
  | request p line =>
      obtain ⟨q, reply, -, hhandle⟩ := step_request hstep
      exact kept_mapped.handleLine hI hhandle

theorem gone_iff_left {k : CString} {l : Listing} (hrun : TrackerRun h st) (hl : (bookOf h).directory k = some l)
    (ha : a ∈ l.peers) : st.peer a = none ↔ Left h a := by
  have hatt := attendance_of_run hrun
  rw [← (keeps_bookOf hrun).directory] at hl
  obtain ⟨f, x, -, hx, rfl⟩ := file_of_directory hl
  exact hatt.here (hatt.born hx ha)

/-- A request brings the tracker down exactly if it is the `getfile` of a peer that has announced, for a hash that is
not listed or under which another peer is listed that has disconnected. -/
theorem faults_iff (hrun : TrackerRun h st) (hq : st.peer p = some q) : handleLine st p line = none ↔
    ((bookOf h).ports p).isSome ∧ ∃ ss, dispatch line = some (.getfile, ss) ∧
      ∀ l ∈ (bookOf h).directory (ss.readWord []).2, ∃ a ∈ l.peers, a ≠ p ∧ Left h a := by
  have hkeeps := keeps_bookOf hrun
  have hmapped := mapped_of_run hrun
  have hlive : AllFiles st st.fileSet := fun f hf => hmapped.live hf
  rw [handleLine_eq_none_iff hmapped.registry hlive hq, hkeeps.isSome_ports hq, hkeeps.directory]
  refine and_congr_right fun _ => exists_congr fun ss => and_congr_right fun _ => forall₂_congr fun l hl => ?_
  exact exists_congr fun a => and_congr_right fun ha => and_congr_right fun _ => gone_iff_left hrun hl ha

/-- A peer announces and leaves, another one asks for its file. -/
def leftBehind : List Event :=
  [.connect ⟨127, 0, 0, 1⟩, .connect ⟨127, 0, 0, 1⟩,
    .request 0 "announce listen 5000 seed [film 10 5 k] leech []".toList,
    .request 1 "announce listen 6000 seed [] leech []".toList, .disconnect 0]

theorem faults_iff_leftBehind : ∃ h st, TrackerRun h st ∧ handleLine st 1 "getfile k".toList = none := by
  obtain ⟨h, st, hrun, ⟨q, hq, hann⟩, hfile, hleft⟩ := exists_run_of_replay leftBehind
    (P := fun h st => (∃ q ∈ st.peer 1, q.announced = true) ∧
      (st.fileMap.get "k".toList).bind st.file = some ⟨"film".toList, 10, 5, "k".toList, [0]⟩ ∧
      ∃ x ∈ h, x.2 = .disconnect 0) (by decide)
  have hkeeps := keeps_bookOf hrun
  refine ⟨h, st, hrun, (faults_iff hrun hq).2 ⟨?_, ⟨" k".toList, true⟩, rfl, fun l hl => ?_⟩⟩
  · rw [hkeeps.isSome_ports hq, hann]
  · have hkey : ((IStream.mk " k".toList true).readWord []).2 = "k".toList := by decide
    rw [hkey, ← hkeeps.directory, Tracker.directory, hfile] at hl
    obtain rfl := Option.some.inj hl
    exact ⟨0, by simp, by decide, hleft⟩

end CppTracker
end Raiezau
