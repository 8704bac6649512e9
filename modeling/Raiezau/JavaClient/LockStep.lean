import Raiezau.JavaClient.FileTables
import Raiezau.JavaClient.LookRequest
import Raiezau.JavaClient.PeersReply
import Raiezau.Machine.Run

/-!
# LockStep — the Java client and its tracker, one line for one line

The client and the tracker are joined by two queues of lines, and the tracker answers every line it
receives with one line of its choice.  Lines are numbered as the client sends them, and an answer carries
the number of the line it answers.

A client that cannot make sense of an answer sends a line of its own, for which no call waits.
`inLockStep_iff` says in which runs this never happens.
-/

namespace Raiezau
namespace JavaClient

open CUtil Text Machine Assoc TrackerM

/-! ## Model -/

/-- The answers of the tracker. -/
inductive Answer
  | ok
  | list (body : CString)
  | peers (key body : CString)
  | error
  deriving DecidableEq, Repr

def Answer.line : Answer → CString
  | .ok => "ok".toList
  | .list body => listLine body
  | .peers key body => peersLine key body
  | .error => "error".toList

/-- The calls of the client; `getfile` comes with the file and its peers as they are then. -/
inductive TrackerCall
  | announce (files : List File) (port : Int)
  | update (files : List File)
  | look (lr : LookRequest)
  | getfile (f : PeerFile)
  deriving DecidableEq, Repr

/-- What a call sends before it waits. -/
def TrackerCall.text : TrackerCall → CString
  | .announce files port => doAnnounce files port
  | .update files => doUpdate files
  | .look lr => doLook lr
  | .getfile f => doGetfile f.file

/-- A call that waits knows the number of its line. -/
inductive Waiting
  | idle
  | reply (c : TrackerCall) (number : Nat)
  deriving DecidableEq, Repr

/-- `sent` is the number of lines sent so far. -/
structure Link where
  manager : FileTables
  waiting : Waiting
  sent : Nat
  requests : List (Nat × CString)
  replies : List (Nat × CString)
  deriving DecidableEq, Repr

namespace Link

def init (manager : FileTables) : Link :=
  { manager := manager
    waiting := .idle
    sent := 0
    requests := []
    replies := [] }

/-- Lines that the client puts into its queue. -/
def push (s : Link) (lines : List CString) : Link :=
  { s with
    sent := s.sent + lines.length
    requests := s.requests ++ (lines.zipIdx s.sent).map fun p => (p.2, p.1) }

inductive Event
  | call (c : TrackerCall)
  | answer (a : Answer)
  | receive
  deriving DecidableEq, Repr

section Step

variable (disk : CString → Option (List UInt8))

/-- What a call does with the reply it reads: the state after it and the lines it sends. -/
def handle (manager : FileTables) (c : TrackerCall) (line : CString) : Option (FileTables × List CString) :=
  match c with
  | .announce _ _ | .update _ =>
      ((afterDeclare : TrackerM FileTables Unit) ⟨manager, [line], []⟩).map fun x => (x.2.state, x.2.output)
  | .look _ => (afterLook (FileTables.addFile disk) ⟨manager, [line], []⟩).map fun x => (x.2.state, x.2.output)
  | .getfile f => (afterGetfile ⟨f, [line], []⟩).map fun x => (manager, x.2.output)

def stepFn (s : Link) : Event → Option (Link)
  | .call c =>
      match s.waiting with
      | .idle => some { s.push (completeLines '\n' c.text) with waiting := .reply c s.sent }
      | .reply _ _ => none
  | .answer a =>
      match s.requests with
      | (n, _) :: requests =>
          if '\n' ∈ a.line then none
          else some { s with requests := requests, replies := s.replies ++ [(n, a.line)] }
      | [] => none
  | .receive =>
      match s.waiting, s.replies with
      | .reply c _, (_, line) :: replies => do
          let (manager, lines) ← handle disk s.manager c line
          pure { push { s with manager := manager, replies := replies } lines with waiting := .idle }
      | _, _ => none

def Step (s : Link) (e : Event) (s' : Link) : Prop := stepFn disk s e = some s'

end Step

/-- Between calls nothing is in flight, and a waiting call has its own line or the answer to it in flight
and nothing else. -/
def InLockStep (_ : History (Link) Event) (s : Link) : Prop :=
  match s.waiting with
  | .idle => s.requests = [] ∧ s.replies = []
  | .reply _ n =>
      (s.requests.map Prod.fst = [n] ∧ s.replies = []) ∨ (s.requests = [] ∧ s.replies.map Prod.fst = [n])

end Link

/-! ## Which replies fit a call -/

/-- Up to the first peer that throws, every one has an address and a port. -/
def NoneInvalid (file : File) : List CString → Prop
  | [] => True
  | peer :: peers =>
      match newFilePeer peer file with
      | .ok _ => NoneInvalid file peers
      | .error .invalidParameter => False
      | .error _ => True

/-- The reply is of the kind the call asks for, and its parts are in order. -/
def TrackerCall.Fits (line : CString) : TrackerCall → Prop
  | .announce _ _ | .update _ => PatternMatcher.ok.Matches line
  | .look _ =>
      ∃ groups ∈ fullMatch PatternMatcher.look.pattern line,
        PatternMatcher.empty.Matches (group groups 0) ∨ (splitBlanks (group groups 0)).length % 4 = 0
  | .getfile f =>
      ∃ groups ∈ fullMatch PatternMatcher.getfile.pattern line,
        f.isKey (group groups 0) ∧
          (PatternMatcher.empty.Matches (group groups 1) ∨
            NoneInvalid f.file (splitBlanks (group groups 1)))

/-- The call's request is one line; the reply a call reads fits it. -/
def Link.Orderly (_ : History Link Link.Event) (s : Link) : Link.Event → Prop
  | .call c => '\n' ∉ c.text.dropLast
  | .answer _ => True
  | .receive =>
      match s.waiting, s.replies with
      | .reply c _, (_, line) :: _ => c.Fits line
      | _, _ => True

/-! ## What the client makes of a reply -/

variable {σ : Type} {s : σ} {line : CString} {f : PeerFile}

theorem sendError_spec : Transfers (sendError : TrackerM σ Unit) s [] (.ok ()) ["error".toList] s :=
  Transfers.write

theorem getMatcher_of_some {m : PatternMatcher} {groups : List CString}
    (h : fullMatch m.pattern line = some groups) : m.getMatcher line = .ok groups := by
  rw [PatternMatcher.getMatcher, h]

theorem getMatcher_of_none {m : PatternMatcher} (h : fullMatch m.pattern line = none) :
    m.getMatcher line = .error .noMatch := by
  rw [PatternMatcher.getMatcher, h]

theorem afterDeclare_spec (s : σ) (line : CString) :
    ∃ r out, Transfers (afterDeclare : TrackerM σ Unit) s [line] r out s ∧
      (out = [] ↔ PatternMatcher.ok.Matches line) := by
  cases hm : fullMatch PatternMatcher.ok.pattern line with
  | some groups =>
      have hread : Transfers (receiveDeclare : TrackerM σ Unit) s [line] (.ok ()) [] s :=
        (receiveAndGetMatcher_spec (getMatcher_of_some hm)).bind_last (Transfers.pure ())
      exact ⟨.ok (), [], hread.tryCatch, by simp [PatternMatcher.Matches, hm]⟩
  | none =>
      have hread : Transfers (receiveDeclare : TrackerM σ Unit) s [line] (.error .noMatch) [] s :=
        (receiveAndGetMatcher_spec (getMatcher_of_none hm)).bind_error
      exact ⟨.ok (), _, hread.tryCatch_error sendError_spec, by simp [PatternMatcher.Matches, hm]⟩

/-- A result that is no exception of the protocol. -/
def Settled {α : Type} (r : Except JavaError α) : Prop := ∀ x, r = .error x → x.isInvalidResponse = false

theorem settled_ok {α : Type} (a : α) : Settled (.ok a : Except JavaError α) := by
  intro x hx
  cases hx

theorem settled_error {α : Type} {x : JavaError} (hx : x.isInvalidResponse = false) :
    Settled (.error x : Except JavaError α) := by
  intro y hy
  obtain rfl := Except.error.inj hy
  exact hx

theorem parseInt_settled (t : CString) : Settled (parseInt t) := by
  have hdigits : ∀ (g : Nat → Int) t, Settled ((parseDigits t).map g) := by
    intro g t
    unfold parseDigits
    split
    · exact settled_ok _
    · exact settled_error rfl
  have hrange : ∀ d : Except JavaError Int, Settled d → Settled (d >>= fun n =>
      if -(2 ^ 31) ≤ n ∧ n < 2 ^ 31 then Except.ok n else .error JavaError.numberFormat) := by
    intro d hd
    cases d with
    | error x => exact hd
    | ok n =>
        rw [ok_bind]
        split
        · exact settled_ok n
        · exact settled_error rfl
  unfold parseInt
  split <;> exact hrange _ (hdigits _ _)

theorem ofFile_settled (length pieceSize : Int) (seeded : Bool) :
    Settled (BufferMap.ofFile length pieceSize seeded) := by
  unfold BufferMap.ofFile pieceCountOf
  split
  · exact settled_error rfl
  · rw [ok_bind]
    unfold BitSet.new
    dsimp only
    split
    · exact settled_error rfl
    · exact settled_ok _

theorem newFilePeer_settled {peer : CString} {file : File} {x : JavaError}
    (h : newFilePeer peer file = .error x) : x.isInvalidResponse = false := by
  unfold newFilePeer at h
  split at h
  · next ip portText _ =>
      cases hport : parseInt portText with
      | error y =>
          rw [hport] at h
          obtain rfl := Except.error.inj h
          exact parseInt_settled _ _ hport
      | ok port =>
          rw [hport, ok_bind] at h
          cases hbm : BufferMap.ofFile file.length file.pieceSize file.seeded with
          | error y =>
              rw [hbm] at h
              obtain rfl := Except.error.inj h
              exact ofFile_settled _ _ _ _ hbm
          | ok bm =>
              rw [hbm] at h
              cases h
  · obtain rfl := Except.error.inj h
    rfl

theorem parseGetfilePeers_sent (peers : List CString) :
    ∃ r f' out, Transfers (parseGetfilePeers peers) f [] r out f' ∧ Settled r ∧
      (out = [] ↔ NoneInvalid f.file peers) := by
  induction peers generalizing f with
  | nil => exact ⟨.ok (), f, [], Transfers.pure (), settled_ok (), by simp [NoneInvalid]⟩
  | cons peer peers ih =>
      cases hnew : newFilePeer peer f.file with
      | ok fp =>
          obtain ⟨r, f', out, hrest, hr, hout⟩ := ih (f := f.addPeer fp)
          refine ⟨r, f', out, ?_, hr, by rw [NoneInvalid, hnew]; exact hout⟩
          refine Transfers.getState.bind_read ?_
          dsimp only
          rw [hnew]
          exact Transfers.setState.bind_read hrest
      | error x =>
          -- A peer whose text is not an endpoint is passed over; any other exception ends the loop.
          by_cases hx : x = .invalidParameter
          · subst hx
            obtain ⟨r, f', out, hrest, hr, -⟩ := ih (f := f)
            refine ⟨r, f', "error".toList :: out, ?_, hr, by simp [NoneInvalid, hnew]⟩
            refine Transfers.getState.bind_read ?_
            dsimp only
            rw [hnew]
            exact sendError_spec.bind hrest
          · have hsettled := newFilePeer_settled hnew
            refine ⟨.error x, f, [], ?_, settled_error hsettled, ?_⟩
            · refine Transfers.getState.bind_read ?_
              dsimp only
              rw [hnew]
              cases x with
              | invalidParameter => exact absurd rfl hx
              | _ => exact (Transfers.throw _).bind_error
            · cases x with
              | invalidParameter => exact absurd rfl hx
              | _ => simp [NoneInvalid, hnew]

theorem afterGetfile_sent (f : PeerFile) (line : CString) : ∃ r f' out, Transfers afterGetfile f [line] r out f' ∧
    (out = [] ↔ (TrackerCall.getfile f).Fits line) := by
  cases hm : fullMatch PatternMatcher.getfile.pattern line with
  | none =>
      have hread : Transfers receiveGetfile f [line] (.error .noMatch) [] f :=
        (receiveAndGetMatcher_spec (getMatcher_of_none hm)).bind_error
      exact ⟨.ok (), f, _, hread.tryCatch_error sendError_spec, by simp [TrackerCall.Fits, hm]⟩
  | some groups =>
      have hmatch := receiveAndGetMatcher_spec (s := f) (getMatcher_of_some hm)
      have hfits : (TrackerCall.getfile f).Fits line ↔ f.isKey (group groups 0) ∧
          (PatternMatcher.empty.Matches (group groups 1) ∨
            NoneInvalid f.file (splitBlanks (group groups 1))) := by
        simp [TrackerCall.Fits, hm]
      -- The line is of another file, or has no peers, or lists them.
      by_cases hkey : f.isKey (group groups 0)
      · by_cases hempty : PatternMatcher.empty.Matches (group groups 1)
        · have hread : Transfers receiveGetfile f [line] (.error .noPeer) [] f := by
            refine hmatch.bind_last (Transfers.getState.bind_last ?_)
            dsimp only
            rw [if_neg (not_not.2 hkey), if_pos hempty]
            exact (Transfers.throw _).bind_error
          refine ⟨.ok (), f, [], hread.tryCatch_error (Transfers.pure ()), ?_⟩
          rw [hfits]
          exact iff_of_true rfl ⟨hkey, .inl hempty⟩
        · obtain ⟨r, f', out, hpeers, hr, hout⟩ := parseGetfilePeers_sent (f := f) (splitBlanks (group groups 1))
          have hread : Transfers receiveGetfile f [line] r out f' := by
            refine hmatch.bind_read (Transfers.getState.bind_read ?_)
            dsimp only
            rw [if_neg (not_not.2 hkey), if_neg hempty]
            exact hpeers
          have hiff : out = [] ↔ (TrackerCall.getfile f).Fits line := by
            rw [hfits, hout]
            exact ⟨fun h => ⟨hkey, .inr h⟩, fun h => h.2.resolve_left hempty⟩
          cases r with
          | ok a => exact ⟨.ok a, f', out, hread.tryCatch, hiff⟩
          | error x =>
              by_cases hno : x = .noPeer
              · subst hno
                have hcatch : Transfers afterGetfile f [line] (.ok ()) (out ++ []) f' :=
                  hread.tryCatch_error (Transfers.pure ())
                rw [List.append_nil] at hcatch
                exact ⟨.ok (), f', out, hcatch, hiff⟩
              · have hcatch : Transfers afterGetfile f [line] (.error x) (out ++ []) f' := by
                  refine hread.tryCatch_error ?_
                  rw [if_neg (by rw [hr x rfl]; exact Bool.false_ne_true), if_neg hno]
                  exact Transfers.throw x
                rw [List.append_nil] at hcatch
                exact ⟨.error x, f', out, hcatch, hiff⟩
      · have hread : Transfers receiveGetfile f [line] (.error .wrongKey) [] f := by
          refine hmatch.bind_last (Transfers.getState.bind_last ?_)
          dsimp only
          rw [if_pos hkey]
          exact (Transfers.throw _).bind_error
        refine ⟨.ok (), f, _, hread.tryCatch_error sendError_spec, ?_⟩
        rw [hfits]
        exact iff_of_false (by simp) fun h => hkey h.1

section Look

variable {φ : Type} {addFile : σ → LookEntry → Except JavaError φ × σ}

theorem parseLookFiles_silent (hadd : ∀ s e, Settled (addFile s e).1) (filesStr : List CString) (s : σ) :
    ∃ r s', Transfers (parseLookFiles addFile filesStr) s [] r [] s' ∧ Settled r := by
  induction filesStr using parseLookFiles.induct generalizing s with
  | case1 name length pieceSize key filesStr ih =>
      cases hlen : parseInt length with
      | error x =>
          exact ⟨.error x, s, (Transfers.ofExcept hlen).bind_error, settled_error (parseInt_settled _ _ hlen)⟩
      | ok n =>
          cases hpiece : parseInt pieceSize with
          | error x =>
              refine ⟨.error x, s, ?_, settled_error (parseInt_settled _ _ hpiece)⟩
              exact (Transfers.ofExcept hlen).bind_last (Transfers.ofExcept hpiece).bind_error
          | ok m =>
              have hcall := callAddFile_spec addFile s ⟨name, n, m, key⟩
              have hsettled := hadd s ⟨name, n, m, key⟩
              cases hfile : (addFile s ⟨name, n, m, key⟩).1 with
              | error x =>
                  rw [hfile] at hcall
                  refine ⟨.error x, (addFile s ⟨name, n, m, key⟩).2, ?_, settled_error (hsettled x hfile)⟩
                  exact (Transfers.ofExcept hlen).bind_last ((Transfers.ofExcept hpiece).bind_last hcall.bind_error)
              | ok file =>
                  rw [hfile] at hcall
                  obtain ⟨r, s', hrest, hr⟩ := ih (addFile s ⟨name, n, m, key⟩).2
                  cases r with
                  | error x =>
                      exact ⟨.error x, s', (Transfers.ofExcept hlen).bind_last
                        ((Transfers.ofExcept hpiece).bind_last (hcall.bind_last hrest.bind_error)),
                        settled_error (hr x rfl)⟩
                  | ok files =>
                      exact ⟨.ok (file :: files), s', (Transfers.ofExcept hlen).bind_last
                        ((Transfers.ofExcept hpiece).bind_last (hcall.bind_last
                          (hrest.bind_last (Transfers.pure _)))), settled_ok _⟩
  | case2 filesStr hshort =>
      refine ⟨.ok [], s, ?_, settled_ok _⟩
      rw [parseLookFiles]
      · exact Transfers.pure []
      · exact hshort

theorem afterLook_sent (hadd : ∀ s e, Settled (addFile s e).1) (lr : LookRequest) (s : σ)
    (line : CString) : ∃ r s' out, Transfers (afterLook addFile) s [line] r out s' ∧
      (out = [] ↔ (TrackerCall.look lr).Fits line) := by
  cases hm : fullMatch PatternMatcher.look.pattern line with
  | none =>
      have hread : Transfers (receiveLook addFile) s [line] (.error .noMatch) [] s :=
        (receiveAndGetMatcher_spec (getMatcher_of_none hm)).bind_error
      exact ⟨.ok [], s, _, hread.tryCatch_error (sendError_spec.bind (Transfers.pure [])),
        by simp [TrackerCall.Fits, hm]⟩
  | some groups =>
      have hmatch := receiveAndGetMatcher_spec (s := s) (getMatcher_of_some hm)
      have hfits : (TrackerCall.look lr).Fits line ↔ PatternMatcher.empty.Matches (group groups 0) ∨
          (splitBlanks (group groups 0)).length % 4 = 0 := by
        simp [TrackerCall.Fits, hm]
      -- The list is empty, can be counted off in fours, or cannot.
      by_cases hempty : PatternMatcher.empty.Matches (group groups 0)
      · have hread : Transfers (receiveLook addFile) s [line] (.error .noFile) [] s := by
          refine hmatch.bind_last ?_
          rw [if_pos hempty]
          exact (Transfers.throw _).bind_error
        refine ⟨.ok [], s, [], hread.tryCatch_error (Transfers.pure []), ?_⟩
        rw [hfits]
        exact iff_of_true rfl (.inl hempty)
      · by_cases hfour : (splitBlanks (group groups 0)).length % 4 = 0
        · obtain ⟨r, s', hparse, hr⟩ := parseLookFiles_silent hadd (splitBlanks (group groups 0)) s
          have hread : Transfers (receiveLook addFile) s [line] r [] s' := by
            refine hmatch.bind_last ?_
            rw [if_neg hempty]
            dsimp only
            rw [if_neg (not_not.2 hfour)]
            exact hparse
          have hiff : ([] : List CString) = [] ↔ (TrackerCall.look lr).Fits line := by
            rw [hfits]
            exact iff_of_true rfl (.inr hfour)
          cases r with
          | ok files => exact ⟨.ok files, s', [], hread.tryCatch, hiff⟩
          | error x =>
              by_cases hno : x = .noFile
              · subst hno
                exact ⟨.ok [], s', [], hread.tryCatch_error (Transfers.pure []), hiff⟩
              · refine ⟨.error x, s', [], hread.tryCatch_error ?_, hiff⟩
                rw [if_neg (by rw [hr x rfl]; exact Bool.false_ne_true), if_neg hno]
                exact Transfers.throw x
        · have hread : Transfers (receiveLook addFile) s [line] (.error .invalidResponse) [] s := by
            refine hmatch.bind_last ?_
            rw [if_neg hempty]
            dsimp only
            rw [if_pos hfour]
            exact (Transfers.throw _).bind_error
          refine ⟨.ok [], s, _, hread.tryCatch_error (sendError_spec.bind (Transfers.pure [])), ?_⟩
          rw [hfits]
          exact iff_of_false (by simp) fun h => h.elim hempty hfour

end Look

theorem addFile_settled (disk : CString → Option (List UInt8)) (m : FileTables) (e : LookEntry) :
    Settled (m.addFile disk e).1 := by
  unfold FileTables.addFile
  split
  · exact settled_ok _
  · split
    · exact settled_error rfl
    · next content _ =>
        cases hbm : BufferMap.ofFile e.length e.pieceSize false with
        | error x =>
            rw [File.incomplete, hbm]
            exact settled_error (ofFile_settled _ _ _ _ hbm)
        | ok bm =>
            rw [File.incomplete, hbm]
            exact settled_ok _

/-! ## One step -/

/-- What a call has in the end is one line. -/
theorem TrackerCall.text_eq (c : TrackerCall) : ∃ body, c.text = body ++ ['\n'] := by
  have hdeclare : ∀ a files, ∃ body, sendDeclare a files = body ++ ['\n'] := fun a files =>
    ⟨a ++ ' ' :: (seedString files ++ ' ' :: leechString files), by simp [sendDeclare]⟩
  cases c with
  | announce files port => exact hdeclare _ _
  | update files => exact hdeclare _ _
  | look lr =>
      have hend : "]\n".toList = "]".toList ++ ['\n'] := by decide
      have hsplit : ∀ a b d : CString, a ++ b ++ (d ++ ['\n']) = (a ++ b ++ d) ++ ['\n'] := by simp
      have hlook : doLook lr = "look [".toList ++ lr.toString ++ ("]".toList ++ ['\n']) := hend ▸ rfl
      exact ⟨_, hlook.trans (hsplit _ _ _)⟩
  | getfile f =>
      have hgetfile : doGetfile f.file = "getfile ".toList ++ f.file.key ++ ['\n'] := rfl
      exact ⟨_, hgetfile⟩

theorem TrackerCall.lines_eq_one (c : TrackerCall) :
    (completeLines '\n' c.text).length = 1 ↔ '\n' ∉ c.text.dropLast := by
  obtain ⟨body, hbody⟩ := c.text_eq
  rw [hbody, length_completeLines, List.count_append, List.dropLast_concat, ← List.count_eq_zero]
  simp

namespace Link

variable {disk : CString → Option (List UInt8)} {s s' : Link} {e : Event} {h h' : History Link Event}

theorem handle_sent {manager manager' : FileTables} {c : TrackerCall} {lines : List CString}
    (hh : handle disk manager c line = some (manager', lines)) : lines = [] ↔ c.Fits line := by
  have hdeclare : ((afterDeclare : TrackerM FileTables Unit) ⟨manager, [line], []⟩).map
      (fun x => (x.2.state, x.2.output)) = some (manager', lines) →
      (lines = [] ↔ PatternMatcher.ok.Matches line) := by
    intro hd
    obtain ⟨r, out, hrun, hout⟩ := afterDeclare_spec manager line
    rw [hrun.run] at hd
    obtain rfl := (Prod.mk.inj (Option.some.inj hd)).2
    exact hout
  cases c with
  | announce files port => exact hdeclare hh
  | update files => exact hdeclare hh
  | look lr =>
      obtain ⟨r, s', out, hrun, hout⟩ := afterLook_sent (addFile_settled disk) lr manager line
      rw [handle, hrun.run] at hh
      obtain rfl := (Prod.mk.inj (Option.some.inj hh)).2
      exact hout
  | getfile f =>
      obtain ⟨r, f', out, hrun, hout⟩ := afterGetfile_sent f line
      rw [handle, hrun.run] at hh
      obtain rfl := (Prod.mk.inj (Option.some.inj hh)).2
      exact hout

theorem map_fst_push (s : Link) (lines : List CString) :
    (s.push lines).requests.map Prod.fst = s.requests.map Prod.fst ++ List.range' s.sent lines.length := by
  have hnumbers : (lines.zipIdx s.sent).map (fun p => p.2) = List.range' s.sent lines.length :=
    List.zipIdx_map_snd s.sent lines
  rw [push, List.map_append, List.map_map, ← hnumbers]
  rfl

/-- What is in flight after a call has been made. -/
theorem inLockStep_call (hreq : s.requests = []) (hrep : s.replies = []) (c : TrackerCall) :
    InLockStep h' { s.push (completeLines '\n' c.text) with waiting := .reply c s.sent } ↔
      '\n' ∉ c.text.dropLast := by
  have hnumbers := map_fst_push s (completeLines '\n' c.text)
  rw [hreq, List.map_nil, List.nil_append] at hnumbers
  rw [← c.lines_eq_one]
  unfold InLockStep
  dsimp only
  rw [hnumbers]
  constructor
  · rintro (⟨hone, -⟩ | ⟨-, hanswer⟩)
    · simpa using congrArg List.length hone
    · rw [push, hrep] at hanswer
      cases hanswer
  · intro hone
    exact .inl ⟨by rw [hone, List.range'_one], hrep⟩

/-- A step stays in lock step exactly when it is orderly. -/
theorem inLockStep_step (hp : InLockStep h s) (hs : Step disk s e s') :
    InLockStep h' s' ↔ Orderly h s e := by
  unfold InLockStep at hp
  -- The client writes a request and waits, the tracker answers, the client reads the line.
  cases e with
  | call c =>
      simp only [Step, stepFn] at hs
      split at hs
      · next hidle =>
          rw [hidle] at hp
          obtain rfl := Option.some.inj hs
          exact inLockStep_call hp.1 hp.2 c
      · cases hs
  | answer a =>
      refine iff_of_true ?_ trivial
      simp only [Step, stepFn] at hs
      split at hs
      · next n line requests hreq =>
          split at hs
          · cases hs
          · obtain rfl := Option.some.inj hs
            rw [hreq] at hp
            unfold InLockStep
            dsimp only
            split at hp
            · exact absurd hp.1 (List.cons_ne_nil _ _)
            · next c m hwait =>
                rcases hp with ⟨hone, hrep⟩ | ⟨hnone, -⟩
                · obtain ⟨rfl, hrest⟩ := List.cons.inj hone
                  exact .inr ⟨List.map_eq_nil_iff.1 hrest, by rw [hrep]; rfl⟩
                · exact absurd hnone (List.cons_ne_nil _ _)
      · cases hs
  | receive =>
      simp only [Step, stepFn] at hs
      split at hs
      · next c n m line replies hwait hrep =>
          rw [Option.bind_eq_bind, Option.bind_eq_some_iff] at hs
          obtain ⟨⟨manager, lines⟩, hh, hpure⟩ := hs
          obtain rfl := Option.some.inj hpure
          rw [hwait, hrep] at hp
          rcases hp with ⟨-, hnone⟩ | ⟨hreq, hone⟩
          · exact absurd hnone (List.cons_ne_nil _ _)
          · obtain ⟨-, hrest⟩ := List.cons.inj hone
            have hreplies : replies = [] := List.map_eq_nil_iff.1 hrest
            have horderly : Orderly h s .receive ↔ lines = [] := by
              rw [handle_sent hh, Orderly, hwait, hrep]
            rw [horderly]
            unfold InLockStep push
            dsimp only
            rw [hreq, hreplies]
            simp
      · cases hs

theorem inLockStep_init (manager : FileTables) : InLockStep [] (init manager) := by
  unfold InLockStep
  exact ⟨rfl, rfl⟩

instance (h : History Link Event) (s : Link) : Decidable (InLockStep h s) := by
  unfold InLockStep
  split <;> infer_instance

/-- No file is there yet. -/
def noFiles : FileTables := ⟨[], []⟩

/-- Events that replay from there are a run, and what a check finds at its end holds. -/
theorem exists_run_of_replay (es : List Event) {P : History Link Event → Link → Prop} [∀ h s, Decidable (P h s)]
    (hre : (replay (stepFn fun _ => some []) [] (init noFiles) es).any (fun r => P r.1 r.2) = true) :
    ∃ h s, Run (Step fun _ => some []) (init noFiles) h s ∧ P h s :=
  Run.exists_of_replay id es hre

end Link

end JavaClient
end Raiezau
