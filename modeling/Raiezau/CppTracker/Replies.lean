import Raiezau.CppTracker.CircularBuffer
import Raiezau.CppTracker.FileMgr
import Raiezau.CppTracker.Kept

/-!
# Replies — every reply of the C++ tracker is one line

A reply is put together from texts of the program, numbers, and what earlier requests have left in the tracker: names,
hashes and ports.  A request is what `readUntil` returns, which has no newline.  So nothing stored has one, and a
reply has the one at its end only, whatever the handler and whether it throws.
-/

namespace Raiezau
namespace CppTracker

open Memory CUtil Text Machine

variable {st st' st₁ : Tracker} {p f : Addr} {s t : CString} {line : CString} {what reply : CString}

/-! ## Texts without a newline -/

def Plain (s : CString) : Prop := '\n' ∉ s

instance : DecidablePred Plain := fun s => inferInstanceAs (Decidable ('\n' ∉ s))

theorem Plain.append (hs : Plain s) (ht : Plain t) : Plain (s ++ t) := fun h =>
  (List.mem_append.1 h).elim hs ht

theorem Plain.sub (hs : Plain s) (hsub : t ⊆ s) : Plain t := fun h => hs (hsub h)

theorem plain_decimal (n : Nat) : Plain (decimal n) := fun h => by
  cases isDigit_of_mem_decimal h

/-- One line, of one of the four kinds. -/
def OneLine (reply : CString) : Prop :=
  (∃ body, reply = body ++ ['\n'] ∧ Plain body) ∧
    ("ok".toList <+: reply ∨ "list [".toList <+: reply ∨ "peers ".toList <+: reply ∨ "error: ".toList <+: reply)

theorem oneLine_ok : OneLine okReply := ⟨⟨"ok".toList, rfl, by decide⟩, .inl ⟨['\n'], rfl⟩⟩

theorem oneLine_errorNotice (h : Plain what) : OneLine (errorNotice what) := by
  refine ⟨⟨"error: ".toList ++ what, rfl, Plain.append (by decide) h⟩, .inr (.inr (.inr ?_))⟩
  unfold errorNotice
  rw [List.append_assoc]
  exact List.prefix_append _ _

/-! ## What is stored -/

/-- No name and no hash of a file has a newline. -/
def Tracker.Clean (st : Tracker) : Prop := ∀ ⦃f x⦄, st.file f = some x → Plain x.fileName ∧ Plain x.hash

theorem clean_modifyPeer {u : Peer → Peer} (hst : st.Clean) : (st.modifyPeer p u).Clean := fun _ _ hx => hst hx

theorem kept_clean (hline : Plain line) (p : Addr) : Kept Tracker.Clean line p where
  modifyPeer := fun _ hst => clean_modifyPeer hst
  addPeer := by
    intro st st' f hst h g y hy
    obtain ⟨x, -, h⟩ := Option.bind_eq_some_iff.1 h
    obtain rfl := Option.some.inj h
    rw [file_modifyFile] at hy
    split at hy
    · obtain ⟨z, hz, rfl⟩ := Option.map_eq_some_iff.1 hy
      exact hst (f := g) (x := z) hz
    · exact hst hy
  registerFile := by
    rintro st x hst - hname hhash g y hy
    rw [FileMgr.file_registerFile] at hy
    split at hy
    · obtain rfl := Option.some.inj hy
      exact ⟨hline.sub hname, hline.sub hhash⟩
    · exact hst hy

/-! ## What is thrown -/

theorem plain_unexpectedToken (h : Plain t) : Plain (unexpectedToken t) :=
  Plain.append (Plain.append (by decide) h) (by decide)

theorem plain_of_applyClause {announce : Bool} {c : Clause} (hc : Plain c.text)
    (h : applyClause announce p st c = some (st', .error what)) : Plain what := by
  have hleech : ∀ {text}, (parseAnnounceLeech st p text).map (fun st => (st, (.ok () : Except CString Unit))) ≠
      some (st', .error what) := by
    intro text h
    obtain ⟨st₁, -, h⟩ := Option.map_eq_some_iff.1 h
    cases (Prod.mk.inj h).2
  have hpair : ∀ {text}, some (st, (.error text : Except CString Unit)) = some (st', .error what) → text = what :=
    fun h => Except.error.inj (Prod.mk.inj (Option.some.inj h)).2
  cases announce with
  | true =>
      cases c with
      | listen argument =>
          rw [applyClause, if_pos rfl, announceClause] at h
          split at h
          · cases (Prod.mk.inj (Option.some.inj h)).2
          · rw [← hpair h]
            decide
      | seed text =>
          have h : parseAnnounceSeed st p text = some (st', .error what) := h
          unfold parseAnnounceSeed at h
          dsimp only at h
          split at h
          · rw [← Except.error.inj (Prod.mk.inj (Option.some.inj h)).2]
            decide
          · obtain ⟨st₁, -, h⟩ := Option.map_eq_some_iff.1 h
            cases (Prod.mk.inj h).2
      | leech text => exact absurd h hleech
      | unexpected keyword =>
          rw [← hpair h]
          exact plain_unexpectedToken hc
  | false =>
      cases c with
      | seed text => exact absurd h hleech
      | leech text => exact absurd h hleech
      | listen argument =>
          rw [← hpair h]
          decide
      | unexpected keyword =>
          rw [← hpair h]
          exact plain_unexpectedToken hc

/-! ## Replies of the handlers -/

/-- A reply that is a line, or a text that makes one. -/
def Answers : Except CString CString → Prop
  | .ok reply => OneLine reply
  | .error what => Plain what

theorem answers_declareWith {announce : Bool} {ss : IStream} {r : Except CString CString} (hline : Plain line)
    (hss : ss.rest ⊆ line) (h : declareWith announce st p ss = some (st', r)) : Answers r := by
  cases r with
  | ok reply =>
      obtain ⟨-, -, -, -, -, -, -, rfl⟩ := declareWith_ok h
      exact oneLine_ok
  | error what =>
      obtain ⟨q, -, h⟩ := Option.bind_eq_some_iff.1 h
      split at h
      · rw [← Except.error.inj (Prod.mk.inj (Option.some.inj h)).2]
        show Plain _
        split <;> decide
      · obtain ⟨⟨st₁, r₁⟩, hloop, h⟩ := Option.bind_eq_some_iff.1 h
        cases r₁ with
        | error what' =>
            obtain ⟨done, c, rest, st₂, hcls, -, hc⟩ := clauseLoop_error hloop
            obtain rfl := Except.error.inj (Prod.mk.inj (Option.some.inj h)).2
            have hmem : c ∈ clausesOf announce (clauseCount announce) (Scan.start ss) := by
              rw [hcls]
              simp
            exact plain_of_applyClause (hline.sub (text_subset_of_mem_clausesOf (Scan.Within.start hss) hmem)) hc
        | ok seen =>
            dsimp only at h
            split at h
            · cases (Prod.mk.inj (Option.some.inj h)).2
            · rw [← Except.error.inj (Prod.mk.inj (Option.some.inj h)).2]
              show Plain _
              decide

/-- The predicates throw what `stoul` throws. -/
theorem predicate_error {c : Criterion} (hc : c ∈ initCriterions) {x : File} {value : CString}
    (h : c.predicate x value = .error what) : what = stoulWhat := by
  have hnum : ∀ {α : Type} {g : Nat → α}, (stoulOrThrow value >>= fun n => Except.ok (g n)) = .error what →
      what = stoulWhat := by
    intro α g h
    unfold stoulOrThrow at h
    split at h
    · exact (Except.error.inj h).symm
    · cases h
  simp only [initCriterions, makeNumField, makeStringField, List.cons_append, List.nil_append, List.mem_cons,
    List.not_mem_nil, or_false] at hc
  rcases hc with rfl | rfl | rfl | rfl | rfl | rfl | rfl | rfl | rfl | rfl | rfl | rfl | rfl | rfl | rfl | rfl
  all_goals first
    | exact hnum h
    | cases h

/-- A sequence that throws: its first part throws, or has a value that the rest throws with. -/
theorem run_bind_error {α β : Type} {m : ExceptT CString Option α} {g : α → ExceptT CString Option β}
    (h : (m >>= g).run = some (.error what)) :
    m.run = some (.error what) ∨ ∃ a, m.run = some (.ok a) ∧ (g a).run = some (.error what) := by
  rw [ExceptT.run_bind] at h
  obtain ⟨r, hr, h⟩ := Option.bind_eq_some_iff.1 h
  cases r with
  | error e =>
      obtain rfl := Except.error.inj (Option.some.inj h)
      exact .inl hr
  | ok a => exact .inr ⟨a, hr, h⟩

theorem visit_error {c : Criterion} {value : CString} {r : PtrSet}
    (h : (c.visit st value r f).run = some (.error what)) : ∃ x, c.predicate x value = .error what := by
  cases hx : st.file f with
  | none =>
      rw [Criterion.visit, hx] at h
      cases h
  | some x =>
      refine ⟨x, ?_⟩
      cases hp : c.predicate x value with
      | error e =>
          rw [visit_throws hx hp] at h
          exact congrArg Except.error (Except.error.inj (Option.some.inj h))
      | ok b =>
          rw [visit_ok hx hp] at h
          cases h

theorem visits_error {c : Criterion} (hc : c ∈ initCriterions) {value : CString} {s r : PtrSet}
    (h : (s.foldlM (c.visit st value) r).run = some (.error what)) : what = stoulWhat := by
  induction s generalizing r with
  | nil => cases h
  | cons f s ih =>
      rw [List.foldlM_cons] at h
      rcases run_bind_error h with h | ⟨r₁, -, h⟩
      · obtain ⟨x, hp⟩ := visit_error h
        exact predicate_error hc hp
      · exact ih h

theorem lookSet_error (h : (lookSet st t).run = some (.error what)) : what = stoulWhat := by
  unfold lookSet at h
  generalize split t ' ' = l at h
  generalize st.fileSet = s at h
  induction l generalizing s with
  | nil => cases h
  | cons w l ih =>
      rw [List.foldlM_cons] at h
      rcases run_bind_error h with h | ⟨s₁, -, h⟩
      · unfold parseCriterion at h
        split at h
        · next c hfind => exact visits_error (List.mem_of_find?_eq_some hfind) h
        · cases h
      · exact ih s₁ h

theorem plain_toString {x : File} (hx : Plain x.fileName ∧ Plain x.hash) : Plain x.toString := by
  have hblank : ∀ {s : CString}, Plain s → Plain (' ' :: s) := fun hs =>
    Plain.append (s := [' ']) (by decide) hs
  exact hx.1.append (hblank ((plain_decimal _).append (hblank ((plain_decimal _).append (hblank hx.2)))))

theorem plain_intercalate {ws : List CString} (h : ∀ w ∈ ws, Plain w) : Plain ([' '].intercalate ws) := by
  intro hn
  rcases mem_intercalate hn with hblank | ⟨w, hw, hn⟩
  · revert hblank
    decide
  · exact h w hw hn

theorem oneLine_of_body {head body : CString} (hhead : head = "list [".toList ∨ ∃ t, head = "peers ".toList ++ t)
    (hplain : Plain head) (hbody : Plain body) : OneLine (head ++ body ++ "]\n".toList) := by
  refine ⟨⟨head ++ body ++ [']'], ?_, (hplain.append hbody).append (by decide)⟩, ?_⟩
  · rw [List.append_assoc _ [']']]
    rfl
  · rcases hhead with rfl | ⟨t, rfl⟩
    · refine .inr (.inl ?_)
      rw [List.append_assoc]
      exact List.prefix_append _ _
    · refine .inr (.inr (.inl ?_))
      rw [List.append_assoc, List.append_assoc]
      exact List.prefix_append _ _

theorem oneLine_fileListString {s : PtrSet} (hst : st.Clean) (h : fileListString st s = some reply) :
    OneLine reply := by
  obtain ⟨xs, hxs, h⟩ := Option.bind_eq_some_iff.1 h
  obtain rfl := Option.some.inj h
  refine oneLine_of_body (.inl rfl) (by decide) (plain_intercalate ?_)
  rintro w hw
  obtain ⟨x, hx, rfl⟩ := List.mem_map.1 hw
  obtain ⟨f, -, hf⟩ := exists_of_mem_left (forall₂_of_mapM hxs).flip hx
  exact plain_toString (hst hf)

theorem answers_handleLook {ss : IStream} {r : Except CString CString} (hst : st.Clean)
    (h : handleLook st p ss = some (st', r)) : Answers r := by
  obtain ⟨q, -, h⟩ := Option.bind_eq_some_iff.1 h
  split at h
  · obtain ⟨rfl, rfl⟩ := Prod.mk.inj (Option.some.inj h)
    show Plain _
    decide
  · obtain ⟨r', hlook, h⟩ := Option.bind_eq_some_iff.1 h
    obtain ⟨rfl, rfl⟩ := Prod.mk.inj (Option.some.inj h)
    unfold parseLook at hlook
    rw [ExceptT.run_bind] at hlook
    obtain ⟨selected, hset, hlist⟩ := Option.bind_eq_some_iff.1 hlook
    cases selected with
    | error what =>
        obtain rfl := Option.some.inj hlist
        obtain rfl := lookSet_error hset
        show Plain _
        decide
    | ok s =>
        obtain ⟨text, htext, rfl⟩ := Option.map_eq_some_iff.1 hlist
        exact oneLine_fileListString hst htext

theorem plain_endpoint (q : Peer) : Plain q.toString := by
  have hip : Plain (CTracker.ipStringify q.remoteIP) := fun h => by
    rcases CTracker.dotted_ipStringify q.remoteIP _ h with hc | hc
    · cases hc
    · revert hc
      decide
  exact hip.append (Plain.append (s := [':']) (by decide) (plain_decimal _))

theorem answers_handleGetfile {ss : IStream} {r : Except CString CString} (hst : st.Clean)
    (h : handleGetfile st p ss = some (st', r)) : Answers r := by
  obtain ⟨q, -, h⟩ := Option.bind_eq_some_iff.1 h
  split at h
  · obtain ⟨rfl, rfl⟩ := Prod.mk.inj (Option.some.inj h)
    show Plain _
    decide
  · obtain ⟨f, -, h⟩ := Option.bind_eq_some_iff.1 h
    obtain ⟨x, hx, h⟩ := Option.bind_eq_some_iff.1 h
    obtain ⟨text, htext, h⟩ := Option.bind_eq_some_iff.1 h
    obtain ⟨rfl, rfl⟩ := Prod.mk.inj (Option.some.inj h)
    obtain ⟨endpoints, hends, htext⟩ := Option.bind_eq_some_iff.1 htext
    obtain rfl := Option.some.inj htext
    obtain ⟨l, rfl, -⟩ := peerEndpoints_eq hends
    have hhead : Plain ("peers ".toList ++ x.hash ++ " [".toList) :=
      (Plain.append (by decide) (hst hx).2).append (by decide)
    refine oneLine_of_body (.inr ⟨x.hash ++ " [".toList, List.append_assoc _ _ _⟩) hhead (plain_intercalate ?_)
    rintro w hw
    obtain ⟨e, -, rfl⟩ := List.mem_map.1 hw
    exact plain_endpoint e.2

theorem answers_call {handler : Handler} {ss : IStream} {r : Except CString CString} (hst : st.Clean)
    (hline : Plain line) (hss : ss.rest ⊆ line) (h : handler.call st p ss = some (st', r)) : Answers r := by
  cases handler with
  | announce => exact answers_declareWith hline hss ((handleAnnounce_eq st p ss).symm.trans h)
  | update => exact answers_declareWith hline hss ((handleUpdate_eq st p ss).symm.trans h)
  | look => exact answers_handleLook hst h
  | getfile => exact answers_handleGetfile hst h

/-! ## Lines and runs -/

theorem oneLine_of_handleLine (hst : st.Clean) (hline : Plain line)
    (h : handleLine st p line = some (st', some reply)) : OneLine reply := by
  have hkeyword : Plain ((IStream.ofString line).readWord []).2 :=
    hline.sub (within_readWord (x := IStream.ofString line) (List.Subset.refl line) (List.nil_subset line)).2
  unfold handleLine at h
  dsimp only at h
  split at h
  · cases (Prod.mk.inj (Option.some.inj h)).2
  · split at h
    · obtain rfl := Option.some.inj (Prod.mk.inj (Option.some.inj h)).2
      exact oneLine_errorNotice ((Plain.append (by decide) hkeyword).append (by decide))
    · next handler ss hd =>
        split at h
        · cases h
        · next st₁ what hcall =>
            obtain rfl := Option.some.inj (Prod.mk.inj (Option.some.inj h)).2
            exact oneLine_errorNotice (answers_call hst hline (rest_subset_of_dispatch hd) hcall)
        · next st₁ text hcall =>
            obtain rfl := Option.some.inj (Prod.mk.inj (Option.some.inj h)).2
            exact answers_call hst hline (rest_subset_of_dispatch hd) hcall

/-- What a line is read up to is not in it, also where the reading goes on at the start of the array. -/
theorem CircularBuffer.not_mem_readUntil (b : CircularBuffer) (c : UInt8) : c ∉ (b.readUntil c).1 := by
  have hpart : ∀ (b : CircularBuffer) (stop : Nat), c ∉ (b.readTo c stop).1 := by
    intro b stop h
    simpa using List.mem_takeWhile_imp h
  unfold CircularBuffer.readUntil
  dsimp only
  rw [List.mem_append, not_or]
  refine ⟨?_, hpart _ _⟩
  split
  · exact hpart _ _
  · exact List.not_mem_nil

/-- A request is a line that has been read, so it has no newline. -/
def PlainRequest (_ : TrackerHistory) (_ : Tracker) : Event → Prop
  | .request _ line => Plain line
  | .connect _ => True
  | .disconnect _ => True

instance (h : TrackerHistory) (st : Tracker) : ∀ ev, Decidable (PlainRequest h st ev)
  | .request _ line => inferInstanceAs (Decidable (Plain line))
  | .connect _ => .isTrue trivial
  | .disconnect _ => .isTrue trivial

/-- What has been written to a peer, the oldest reply first. -/
def repliesTo (p : Addr) : TrackerHistory → List CString
  | [] => []
  | (st, .request e line) :: h => repliesTo p h ++ if e = p then ((handleLine st e line).bind Prod.snd).toList else []
  | (_, .connect _) :: h => repliesTo p h
  | (_, .disconnect _) :: h => repliesTo p h

/-- The lines of a peer that are not blank. -/
def requestsOf (p : Addr) : TrackerHistory → List CString
  | [] => []
  | (_, .request e line) :: h =>
      requestsOf p h ++ if e = p ∧ ((IStream.ofString line).readWord []).2 ≠ [] then [line] else []
  | (_, .connect _) :: h => requestsOf p h
  | (_, .disconnect _) :: h => requestsOf p h

/-- A peer that cuts what it reads into lines has the replies to its requests, one by one. -/
structure AnsweredByLines (p : Addr) (h : TrackerHistory) : Prop where
  oneLine : ∀ reply ∈ repliesTo p h, OneLine reply
  lines : completeLines '\n' (repliesTo p h).flatten = (repliesTo p h).map List.dropLast
  last : lastLine '\n' (repliesTo p h).flatten = []
  count : (repliesTo p h).length = (requestsOf p h).length

theorem handleLine_isSome_iff {r : Option CString} (h : handleLine st p line = some (st', r)) :
    r.isSome = true ↔ ((IStream.ofString line).readWord []).2 ≠ [] := by
  unfold handleLine at h
  dsimp only at h
  split at h
  · next hblank =>
      obtain ⟨rfl, rfl⟩ := Prod.mk.inj (Option.some.inj h)
      simp [hblank]
  · next hword =>
      refine iff_of_true ?_ hword
      split at h
      · obtain ⟨rfl, rfl⟩ := Prod.mk.inj (Option.some.inj h)
        rfl
      · split at h
        · cases h
        · obtain ⟨rfl, rfl⟩ := Prod.mk.inj (Option.some.inj h)
          rfl
        · obtain ⟨rfl, rfl⟩ := Prod.mk.inj (Option.some.inj h)
          rfl

theorem AnsweredByLines.append {h h' : TrackerHistory} (hans : AnsweredByLines p h)
    (hreplies : repliesTo p h' = repliesTo p h ++ [reply]) (hone : OneLine reply)
    (hcount : (requestsOf p h').length = (requestsOf p h).length + 1) : AnsweredByLines p h' := by
  obtain ⟨body, rfl, hbody⟩ := hone.1
  have hflat : (repliesTo p h').flatten = (repliesTo p h).flatten ++ (body ++ ['\n']) := by
    rw [hreplies, List.flatten_append, List.flatten_cons, List.flatten_nil, List.append_nil]
  refine ⟨?_, ?_, ?_, ?_⟩
  · rw [hreplies]
    intro reply hmem
    rcases List.mem_append.1 hmem with hmem | hmem
    · exact hans.oneLine reply hmem
    · obtain rfl := List.mem_singleton.1 hmem
      exact hone
  -- What was read before ended with a whole line.
  · rw [hflat, completeLines_append, hans.last, List.nil_append, completeLines_line hbody, hreplies, List.map_append,
      hans.lines, List.map_singleton, List.dropLast_concat]
    rfl
  · rw [hflat, lastLine_append, hans.last, List.nil_append, lastLine_line hbody]
    rfl
  · rw [hreplies, List.length_append, hans.count, hcount]
    rfl

theorem AnsweredByLines.congr {h h' : TrackerHistory} (hans : AnsweredByLines p h)
    (hreplies : repliesTo p h' = repliesTo p h) (hreq : requestsOf p h' = requestsOf p h) : AnsweredByLines p h' := by
  obtain ⟨hone, hlines, hlast, hcount⟩ := hans
  exact ⟨hreplies ▸ hone, hreplies ▸ hlines, hreplies ▸ hlast, by rw [hreplies, hreq, hcount]⟩

theorem clean_step {ev : Event} {h : TrackerHistory} (hst : st.Clean) (hev : PlainRequest h st ev)
    (hstep : Step st ev st') : st'.Clean := by
  cases ev with
  | connect remoteIP =>
      obtain rfl := Option.some.inj hstep
      exact fun _ _ hx => hst hx
  | disconnect e =>
      obtain ⟨q, -, hpure⟩ := Option.bind_eq_some_iff.1 hstep
      obtain rfl := Option.some.inj hpure
      exact fun _ _ hx => hst hx
  | request e line =>
      obtain ⟨q, r, -, hhandle⟩ := step_request hstep
      exact (kept_clean hev e).handleLine hst hhandle

/-- In every run the replies to a peer can be told apart: there is one for each of its requests. -/
theorem answeredByLines_of_plain {h : TrackerHistory} (hrun : TrackerRun h st) (hplain : StepsMeet PlainRequest h)
    (p : Addr) : AnsweredByLines p h := by
  have hinit : Tracker.init.Clean ∧ AnsweredByLines p [] := by
    refine ⟨fun f x hx => ?_, fun reply hr => ?_, rfl, rfl, rfl⟩
    · cases hx
    · cases hr
  refine (Run.along_of_stepsMeet (I := fun h st => st.Clean ∧ AnsweredByLines p h)
    (P := fun h _ => AnsweredByLines p h) hinit ?_ And.right hrun hplain).last
  rintro h st ev st' ⟨hst, hans⟩ hev hstep
  refine ⟨clean_step hst hev hstep, ?_⟩
  cases ev with
  | connect remoteIP => exact hans.congr rfl rfl
  | disconnect e => exact hans.congr rfl rfl
  | request e line =>
      obtain ⟨q, r, -, hhandle⟩ := step_request hstep
      have hreplies : repliesTo p ((st, .request e line) :: h) = repliesTo p h ++ if e = p then r.toList else [] := by
        rw [repliesTo, hhandle]
        rfl
      have hword := handleLine_isSome_iff hhandle
      by_cases hp : e = p
      · rw [if_pos hp] at hreplies
        cases r with
        | none =>
            refine hans.congr (hreplies.trans (List.append_nil _)) ?_
            rw [requestsOf, if_neg fun hreq => Bool.false_ne_true (hword.2 hreq.2), List.append_nil]
        | some reply =>
            refine hans.append hreplies (oneLine_of_handleLine hst hev hhandle) ?_
            rw [requestsOf, if_pos ⟨hp, hword.1 rfl⟩, List.length_append]
            rfl
      · refine hans.congr ?_ ?_
        · rw [hreplies, if_neg hp, List.append_nil]
        · rw [requestsOf, if_neg fun hreq => hp hreq.1, List.append_nil]

/-- Two peers whose requests are interleaved: one is refused, announces a file and leaves a blank line, the other one
asks for the file. -/
def twoPeers : List Event :=
  [.connect ⟨127, 0, 0, 1⟩, .connect ⟨127, 0, 0, 1⟩, .request 0 "foo".toList,
    .request 1 "announce listen 6000 seed [] leech []".toList, .request 0 " ".toList,
    .request 0 "announce listen 5000 seed [film 10 5 k] leech []".toList, .request 1 "getfile k".toList]

theorem answeredByLines_of_plain_twoPeers : ∃ h st, TrackerRun h st ∧ AnsweredByLines 1 h ∧
    repliesTo 1 h = ["ok\n".toList, "peers k [127.0.0.1:5000]\n".toList] := by
  obtain ⟨h, st, hrun, hplain, hreplies⟩ := exists_run_of_replay twoPeers
    (P := fun h _ => StepsMeet PlainRequest h ∧
      repliesTo 1 h = ["ok\n".toList, "peers k [127.0.0.1:5000]\n".toList]) (by decide)
  exact ⟨h, st, hrun, answeredByLines_of_plain hrun hplain 1, hreplies⟩

end CppTracker
end Raiezau
