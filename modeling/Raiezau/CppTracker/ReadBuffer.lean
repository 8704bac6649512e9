import Raiezau.CppTracker.CircularBuffer
import Raiezau.Machine.Run
import Raiezau.Text.Lines

/-!
# ReadBuffer — how the C++ tracker cuts its input into requests

`ClientSocket::eventHandler` and `Peer::readHandler`.  A wakeup of the event loop puts all that can be read
into the read buffer and then takes the lines out of it.  What a request does is a parameter here,
`handle`: it changes the tracker and says whether the request succeeded.
-/

namespace Raiezau
namespace CppTracker
namespace ReadBuffer

open Machine Bytes Text

variable {σ : Type}

/-! ## Model -/

/-- `BUF_SIZE`: the most one `::read` returns. -/
def bufSize : Nat := 1024

def sockBufSize : Nat := 32768

def maxKeywordSize : Nat := 8

def maxSeqErrorCount : Nat := 5

inductive Status
  | connected
  /-- `readHandler` returned false. -/
  | refused
  /-- The peer closed the connection, or reading failed. -/
  | hungUp
  deriving DecidableEq, Repr

/-- `tracker` is what the requests change; `received` is the stream so far, `lines` what was taken out. -/
structure State (σ : Type) where
  readBuf : CircularBuffer
  tracker : σ
  seqErrorCount : Nat
  status : Status
  received : List UInt8
  lines : List (List UInt8)

def State.init (tracker : σ) : State σ :=
  { readBuf := CircularBuffer.new sockBufSize
    tracker := tracker
    seqErrorCount := 0
    status := .connected
    received := []
    lines := [] }

namespace State

def takeLine (s : State σ) (line : List UInt8) (buf : CircularBuffer) : State σ :=
  { s with readBuf := buf, lines := s.lines ++ [line] }

def answer (s : State σ) (tracker : σ) (seqErrorCount : Nat) : State σ :=
  { s with tracker := tracker, seqErrorCount := seqErrorCount }

def fill (s : State σ) (buf : CircularBuffer) (data : List UInt8) : State σ :=
  { s with readBuf := buf, received := s.received ++ data }

def close (s : State σ) (status : Status) : State σ := { s with status := status }

end State

/-- A wakeup: what its reads return, and whether the last one would block. -/
structure Wakeup where
  reads : List (List UInt8)
  blocks : Bool
  deriving DecidableEq, Repr

/-- A line without a keyword. -/
def isBlank (line : List UInt8) : Bool := line.all fun c => c = 32 || (9 ≤ c && c ≤ 13)

/-- One pass for each byte in the buffer at most: every pass takes one out. -/
def readHandler (handle : σ → List UInt8 → σ × Bool) : Nat → State σ → Bool × State σ
  | 0, s => (true, s)
  | fuel + 1, s =>
      if s.readBuf.size = 0 then (true, s)
      else if s.readBuf.haveLine = false then
        if s.readBuf.haveWord = false ∧ maxKeywordSize < s.readBuf.size then (false, s) else (true, s)
      else
        let (line, buf) := s.readBuf.readUntil 10
        let s := s.takeLine line buf
        if isBlank line then readHandler handle fuel s
        else
          match handle s.tracker line with
          | (tracker, true) => readHandler handle fuel (s.answer tracker 0)
          | (tracker, false) =>
              let s := s.answer tracker (s.seqErrorCount + 1)
              if maxSeqErrorCount < s.seqErrorCount then (false, s) else readHandler handle fuel s

/-- `ClientSocket::eventHandler`. -/
def eventHandler (handle : σ → List UInt8 → σ × Bool) (s : State σ) (e : Wakeup) : Option (State σ) := do
  let buf ← e.reads.foldlM CircularBuffer.append s.readBuf
  let (ok, s) := readHandler handle buf.size (s.fill buf e.reads.flatten)
  some (s.close (if ok then (if e.blocks then .connected else .hungUp) else .refused))

/-- A connection is woken until it is removed; a read returns from one to `BUF_SIZE` bytes. -/
def step (handle : σ → List UInt8 → σ × Bool) (s : State σ) (e : Wakeup) : Option (State σ) :=
  if s.status = .connected ∧ ∀ data ∈ e.reads, 1 ≤ data.length ∧ data.length ≤ bufSize then
    eventHandler handle s e
  else none

def Step (handle : σ → List UInt8 → σ × Bool) (s : State σ) (e : Wakeup) (s' : State σ) : Prop :=
  step handle s e = some s'

/-! ## What the lines of a stream do -/

section Serve

variable (handle : σ → List UInt8 → σ × Bool)

/-- The tracker and the count of failures in a row after a line. -/
def serveLine (x : σ × Nat) (line : List UInt8) : σ × Nat :=
  if isBlank line then x
  else
    match handle x.1 line with
    | (tracker, true) => (tracker, 0)
    | (tracker, false) => (tracker, x.2 + 1)

/-- The lines up to the first that makes too many failures in a row. -/
def linesServed : σ × Nat → List (List UInt8) → List (List UInt8)
  | _, [] => []
  | x, line :: lines =>
      line ::
        if maxSeqErrorCount < (serveLine handle x line).2 then []
        else linesServed (serveLine handle x line) lines

/-- What is left has no keyword and is too long to become one. -/
def Overlong (rest : List UInt8) : Prop := 32 ∉ rest ∧ maxKeywordSize < rest.length

instance (rest : List UInt8) : Decidable (Overlong rest) := inferInstanceAs (Decidable (_ ∧ _))

/-- The lines taken are the complete lines of the stream, in order and each handed to its handler once, up
to the point where `readHandler` gives up; and it does so for one of its two reasons only. -/
structure Framed (tracker : σ) (_ : History (State σ) Wakeup) (s : State σ) : Prop where
  lines_eq : s.lines = linesServed handle (tracker, 0) (completeLines 10 s.received)
  served : (s.tracker, s.seqErrorCount) = s.lines.foldl (serveLine handle) (tracker, 0)
  refused_iff : s.status = .refused ↔
    maxSeqErrorCount < s.seqErrorCount ∨ Overlong (lastLine 10 s.received)

/-- The buffer does not come to be wrapped in this wakeup, or no line of it ends before the end of the array
and the buffer is not full with a line or a word in it. -/
def Straight (_ : History (State σ) Wakeup) (s : State σ) (e : Wakeup) : Prop :=
  s.readBuf.remainingSpace < e.reads.flatten.length ∨
    s.readBuf.r + s.readBuf.size + e.reads.flatten.length ≤ s.readBuf.capacity ∨
    (10 ∉ (s.readBuf.held ++ e.reads.flatten).take (s.readBuf.capacity - s.readBuf.r) ∧
      (e.reads.flatten.length < s.readBuf.remainingSpace ∨
        (10 ∉ s.readBuf.held ++ e.reads.flatten ∧ 32 ∉ s.readBuf.held ++ e.reads.flatten)))

variable {handle}

theorem linesServed_append {x : σ × Nat} {l : List (List UInt8)} (l' : List (List UInt8)) (hall : linesServed handle x l = l)
    (hcount : (l.foldl (serveLine handle) x).2 ≤ maxSeqErrorCount) :
    linesServed handle x (l ++ l') = l ++ linesServed handle (l.foldl (serveLine handle) x) l' := by
  induction l generalizing x with
  | nil => rfl
  | cons line l ih =>
      rw [linesServed, List.cons.injEq] at hall
      obtain ⟨-, hall⟩ := hall
      rw [List.cons_append, linesServed]
      split at hall
      · next hmany =>
          subst hall
          exact absurd hmany (Nat.not_lt_of_le hcount)
      · next hfew => rw [if_neg hfew, ih hall hcount, List.cons_append, List.foldl_cons]

end Serve

/-! ## Filling the buffer -/

/-- What is read joins what is held; the array only changes where it has to grow. -/
theorem fill_spec {b : CircularBuffer} (h : b.Rep) (reads : List (List UInt8)) :
    ∃ b', reads.foldlM CircularBuffer.append b = some b' ∧ b'.Rep ∧ b'.held = b.held ++ reads.flatten ∧
      (reads.flatten.length ≤ b.remainingSpace ∧ b'.r = b.r ∧ b'.capacity = b.capacity ∨
        b.remainingSpace < reads.flatten.length ∧ b'.r = 0) := by
  -- The induction is on the reads of one wakeup; the array grows at one of them or at none.
  induction reads generalizing b with
  | nil => exact ⟨b, rfl, h, (List.append_nil _).symm, .inl ⟨Nat.zero_le _, rfl, rfl⟩⟩
  | cons data reads ih =>
      obtain ⟨b₁, happend, hrep₁, hheld₁, hr₁⟩ := h.append data
      obtain ⟨b', hfill, hrep, hheld, hr⟩ := ih hrep₁
      refine ⟨b', ?_, hrep, ?_, ?_⟩
      · rw [List.foldlM_cons, happend]
        exact hfill
      · rw [hheld, hheld₁, List.flatten_cons, List.append_assoc]
      · have hsize := hrep₁.length_held
        rw [hheld₁, List.length_append, h.length_held] at hsize
        rw [List.flatten_cons, List.length_append]
        unfold CircularBuffer.remainingSpace at hr₁ hr ⊢
        omega

theorem readable_of_straight {h : History (State σ) Wakeup} {s : State σ} {e : Wakeup} {b : CircularBuffer}
    (hs : s.readBuf.Rep) (hstraight : Straight h s e) (hb : b.Rep)
    (hheld : b.held = s.readBuf.held ++ e.reads.flatten)
    (hfill : e.reads.flatten.length ≤ s.readBuf.remainingSpace ∧ b.r = s.readBuf.r ∧
      b.capacity = s.readBuf.capacity ∨
        s.readBuf.remainingSpace < e.reads.flatten.length ∧ b.r = 0) : b.Readable := by
  intro hwrap
  have hsize := hb.length_held
  rw [hheld, List.length_append, hs.length_held] at hsize
  have hcap := hb.size_le
  unfold CircularBuffer.Wrapped at hwrap
  rcases hfill with ⟨hroom, hr, hcapacity⟩ | ⟨-, hr⟩
  · rcases hstraight with hgrow | hfits | ⟨hfirst, hrest⟩
    · omega
    · omega
    · rw [hheld, hr, hcapacity]
      refine ⟨hfirst, hrest.imp_left fun hlt => ?_⟩
      unfold CircularBuffer.remainingSpace at hlt
      omega
  · omega

/-! ## Taking the lines -/

variable {handle : σ → List UInt8 → σ × Bool}

/-- What a run of `readHandler` makes of what the buffer holds. -/
structure Handled (handle : σ → List UInt8 → σ × Bool) (s : State σ) (ok : Bool) (s' : State σ) : Prop where
  rep : s'.readBuf.Rep
  received_eq : s'.received = s.received
  lines_eq : s'.lines = s.lines ++
    linesServed handle (s.tracker, s.seqErrorCount) (completeLines 10 s.readBuf.held)
  served : (s'.tracker, s'.seqErrorCount) =
    (linesServed handle (s.tracker, s.seqErrorCount) (completeLines 10 s.readBuf.held)).foldl
      (serveLine handle) (s.tracker, s.seqErrorCount)
  ok_iff : ok = true ↔ s'.seqErrorCount ≤ maxSeqErrorCount ∧ ¬ Overlong (lastLine 10 s.readBuf.held)
  rest : ok = true →
    linesServed handle (s.tracker, s.seqErrorCount) (completeLines 10 s.readBuf.held) =
      completeLines 10 s.readBuf.held ∧ s'.readBuf.held = lastLine 10 s.readBuf.held

theorem handled_of_no_line {s : State σ} (hrep : s.readBuf.Rep)
    (hcount : s.seqErrorCount ≤ maxSeqErrorCount) (hline : 10 ∉ s.readBuf.held) {ok : Bool}
    (hok : ok = true ↔ ¬ Overlong s.readBuf.held) : Handled handle s ok s := by
  have hlines := completeLines_of_not_mem hline
  have hlast := lastLine_of_not_mem hline
  refine ⟨hrep, rfl, ?_, ?_, ?_, fun _ => ⟨?_, hlast.symm⟩⟩
  · rw [hlines, linesServed, List.append_nil]
  · rw [hlines]
    rfl
  · rw [hlast, hok]
    exact ⟨fun h => ⟨hcount, h⟩, And.right⟩
  · rw [hlines]
    rfl

/-- The rest of the lines, after the first has been served. -/
theorem Handled.cons {s s' : State σ} (s₁ : State σ) {ok : Bool} {line rest : List UInt8} (hline : 10 ∉ line)
    (hheld : s.readBuf.held = line ++ 10 :: rest) (hrest : s₁.readBuf.held = rest)
    (hreceived : s₁.received = s.received) (hlines : s₁.lines = s.lines ++ [line])
    (hserved : serveLine handle (s.tracker, s.seqErrorCount) line = (s₁.tracker, s₁.seqErrorCount))
    (hcount : s₁.seqErrorCount ≤ maxSeqErrorCount) (h : Handled handle s₁ ok s') :
    Handled handle s ok s' := by
  have hcomplete : completeLines 10 s.readBuf.held = line :: completeLines 10 s₁.readBuf.held := by
    rw [hheld, completeLines_line hline, hrest]
  have hlast : lastLine 10 s.readBuf.held = lastLine 10 s₁.readBuf.held := by
    rw [hheld, lastLine_line hline, hrest]
  have hstep : linesServed handle (s.tracker, s.seqErrorCount) (completeLines 10 s.readBuf.held) =
      line :: linesServed handle (s₁.tracker, s₁.seqErrorCount) (completeLines 10 s₁.readBuf.held) := by
    rw [hcomplete, linesServed, hserved, if_neg (Nat.not_lt_of_le hcount)]
  refine ⟨h.rep, h.received_eq.trans hreceived, ?_, ?_, ?_, fun hok => ⟨?_, ?_⟩⟩
  · rw [h.lines_eq, hlines, hstep, List.append_assoc]
    rfl
  · rw [hstep, List.foldl_cons, hserved]
    exact h.served
  · rw [hlast]
    exact h.ok_iff
  · rw [hstep, hcomplete, (h.rest hok).1]
  · rw [hlast]
    exact (h.rest hok).2

/-- A line that makes too many failures in a row is the last one. -/
theorem Handled.stop {s s₁ : State σ} {line rest : List UInt8} (hline : 10 ∉ line)
    (hheld : s.readBuf.held = line ++ 10 :: rest) (hreceived : s₁.received = s.received)
    (hlines : s₁.lines = s.lines ++ [line])
    (hserved : serveLine handle (s.tracker, s.seqErrorCount) line = (s₁.tracker, s₁.seqErrorCount))
    (hmany : maxSeqErrorCount < s₁.seqErrorCount) (hrep : s₁.readBuf.Rep) : Handled handle s false s₁ := by
  have hstep : linesServed handle (s.tracker, s.seqErrorCount) (completeLines 10 s.readBuf.held) =
      [line] := by
    rw [hheld, completeLines_line hline, linesServed, hserved, if_pos hmany]
  refine ⟨hrep, hreceived, ?_, ?_, ⟨fun h => absurd h Bool.false_ne_true, fun h => ?_⟩,
    fun h => absurd h Bool.false_ne_true⟩
  · rw [hlines, hstep]
  · rw [hstep]
    exact hserved.symm
  · exact absurd hmany (Nat.not_lt_of_le h.1)

theorem readHandler_spec {fuel : Nat} {s : State σ} (hfuel : s.readBuf.size ≤ fuel) (hrep : s.readBuf.Rep)
    (hread : s.readBuf.Readable) (hcount : s.seqErrorCount ≤ maxSeqErrorCount) :
    Handled handle s (readHandler handle fuel s).1 (readHandler handle fuel s).2 := by
  -- Every pass takes a line off the buffer, so its size bounds the passes.
  induction fuel generalizing s with
  | zero =>
      have hempty : s.readBuf.held = [] :=
        List.eq_nil_of_length_eq_zero (hrep.length_held.trans (Nat.le_zero.1 hfuel))
      refine handled_of_no_line hrep hcount (by simp [hempty]) ⟨fun _ hlong => ?_, fun _ => rfl⟩
      rw [hempty] at hlong
      exact Nat.not_lt_zero _ hlong.2
  | succ fuel ih =>
      have hline := hrep.haveLine_iff hread
      have hword := hrep.haveWord_iff hread
      have hlength := hrep.length_held
      rw [readHandler]
      split
      · next hzero =>
          have hempty : s.readBuf.held = [] := List.eq_nil_of_length_eq_zero (hlength.trans hzero)
          refine handled_of_no_line hrep hcount (by simp [hempty]) ⟨fun _ hlong => ?_, fun _ => rfl⟩
          rw [hempty] at hlong
          exact Nat.not_lt_zero _ hlong.2
      · next hsome =>
          split
          · next hno =>
              have hnot : 10 ∉ s.readBuf.held := fun hmem => by simp [hline.2 hmem] at hno
              have hlong : (s.readBuf.haveWord = false ∧ maxKeywordSize < s.readBuf.size) ↔
                  Overlong s.readBuf.held := by
                rw [Overlong, hlength, ← hword, Bool.not_eq_true]
              split
              · next hover =>
                  exact handled_of_no_line hrep hcount hnot
                    ⟨fun h => absurd h Bool.false_ne_true, fun h => absurd (hlong.1 hover) h⟩
              · next hshort =>
                  exact handled_of_no_line hrep hcount hnot
                    ⟨fun _ h => hshort (hlong.2 h), fun _ => rfl⟩
          · next hyes =>
              have hmem : 10 ∈ s.readBuf.held := hline.1 (by simpa using hyes)
              obtain ⟨hfree, hheld⟩ := exists_line hmem
              obtain ⟨b', hres, hrep', hwrap', hrest⟩ := hrep.readUntil_line hread hfree hheld
              generalize s.readBuf.held.takeWhile (fun c => c ≠ 10) = line at hfree hheld hres
              generalize (s.readBuf.held.dropWhile (fun c => c ≠ 10)).drop 1 = rest at hheld hrest
              have hread' : b'.Readable := fun h => absurd h hwrap'
              have hsize' : b'.size ≤ fuel := by
                have hshort := hrep'.length_held
                rw [hrest] at hshort
                rw [hheld, List.length_append, List.length_cons] at hlength
                omega
              rw [hres]
              dsimp only
              split
              · next hblank =>
                  refine Handled.cons (s.takeLine line b') hfree hheld hrest rfl rfl ?_ hcount
                    (ih hsize' hrep' hread' hcount)
                  exact if_pos hblank
              · next hword' =>
                  -- The handler takes the line and clears the count of errors, or refuses it and adds to the count.
                  cases hhandle : handle s.tracker line with
                  | mk tracker ok =>
                      have hhandle' : handle (s.takeLine line b').tracker line = (tracker, ok) := hhandle
                      have hserve (count : Nat) (hc : serveLine handle (s.tracker, s.seqErrorCount) line =
                          (tracker, count)) : serveLine handle (s.tracker, s.seqErrorCount) line =
                          (((s.takeLine line b').answer tracker count).tracker,
                            ((s.takeLine line b').answer tracker count).seqErrorCount) := hc
                      rw [hhandle']
                      cases ok with
                      | true =>
                          refine Handled.cons ((s.takeLine line b').answer tracker 0) hfree hheld hrest rfl rfl
                            (hserve 0 ?_) (Nat.zero_le _) (ih hsize' hrep' hread' (Nat.zero_le _))
                          rw [serveLine, if_neg hword', hhandle]
                      | false =>
                          have hfail : serveLine handle (s.tracker, s.seqErrorCount) line =
                              (tracker, s.seqErrorCount + 1) := by
                            rw [serveLine, if_neg hword', hhandle]
                          dsimp only
                          split
                          · next hmany =>
                              exact Handled.stop hfree hheld rfl rfl (hserve _ hfail) hmany hrep'
                          · next hfew =>
                              exact Handled.cons ((s.takeLine line b').answer tracker (s.seqErrorCount + 1))
                                hfree hheld hrest rfl rfl (hserve _ hfail) (Nat.le_of_not_lt hfew)
                                (ih hsize' hrep' hread' (Nat.le_of_not_lt hfew))

/-! ## Runs -/

/-- What a connection that is still open has left: the part of a line. -/
structure Waiting (handle : σ → List UInt8 → σ × Bool) (tracker : σ) (s : State σ) : Prop where
  rep : s.readBuf.Rep
  count_le : s.seqErrorCount ≤ maxSeqErrorCount
  held_eq : s.readBuf.held = lastLine 10 s.received
  all_served : linesServed handle (tracker, 0) (completeLines 10 s.received) = completeLines 10 s.received

/-- The invariant of the runs: the lines are framed, and an open connection waits for the next. -/
structure Sound (handle : σ → List UInt8 → σ × Bool) (tracker : σ) (h : History (State σ) Wakeup)
    (s : State σ) : Prop where
  framed : Framed handle tracker h s
  waiting : s.status = .connected → Waiting handle tracker s

theorem sound_init (tracker : σ) : Sound handle tracker [] (State.init tracker) := by
  refine ⟨⟨rfl, rfl, ?_⟩, fun _ => ⟨CircularBuffer.rep_new (by decide), Nat.zero_le _, rfl, rfl⟩⟩
  refine ⟨fun h => Status.noConfusion h, ?_⟩
  rintro (h | h)
  · exact absurd h (Nat.not_lt_zero _)
  · exact absurd h.2 (Nat.not_lt_zero _)

theorem sound_of_handled {tracker : σ} {h h' : History (State σ) Wakeup} {s s₂ : State σ} {ok blocks : Bool}
    {b : CircularBuffer} {data : List UInt8} (hframed : Framed handle tracker h s)
    (hwaiting : Waiting handle tracker s) (hheld : b.held = s.readBuf.held ++ data)
    (hh : Handled handle (s.fill b data) ok s₂) :
    Sound handle tracker h'
      (s₂.close (if ok then (if blocks then .connected else .hungUp) else .refused)) := by
  have hlines : completeLines 10 (s.received ++ data) = completeLines 10 s.received ++ completeLines 10 b.held := by
    rw [completeLines_append, hheld, hwaiting.held_eq]
  have hlast : lastLine 10 (s.received ++ data) = lastLine 10 b.held := by
    rw [lastLine_append, hheld, hwaiting.held_eq]
  have hbefore : s.lines = completeLines 10 s.received := hframed.lines_eq.trans hwaiting.all_served
  have hserved := hframed.served
  rw [hbefore] at hserved
  have hsplit := linesServed_append (completeLines 10 b.held) hwaiting.all_served
    (by rw [← hserved]; exact hwaiting.count_le)
  rw [← hserved] at hsplit
  have hreceived : s₂.received = s.received ++ data := hh.received_eq
  have hafter : s₂.lines = s.lines ++ linesServed handle (s.tracker, s.seqErrorCount) (completeLines 10 b.held) :=
    hh.lines_eq
  refine ⟨⟨?_, ?_, ?_⟩, fun hopen => ?_⟩
  · show s₂.lines = linesServed handle (tracker, 0) (completeLines 10 s₂.received)
    rw [hreceived, hlines, hsplit, hafter, hbefore]
  · show (s₂.tracker, s₂.seqErrorCount) = s₂.lines.foldl (serveLine handle) (tracker, 0)
    rw [hafter, List.foldl_append, ← hframed.served]
    exact hh.served
  · show (if ok then (if blocks then Status.connected else .hungUp) else .refused) = .refused ↔
      maxSeqErrorCount < s₂.seqErrorCount ∨ Overlong (lastLine 10 s₂.received)
    have hok : ok = true ↔ s₂.seqErrorCount ≤ maxSeqErrorCount ∧ ¬ Overlong (lastLine 10 b.held) := hh.ok_iff
    rw [hreceived, hlast]
    cases ok with
    | true =>
        obtain ⟨hle, hshort⟩ := hok.1 rfl
        refine ⟨fun hst => ?_, fun hor => ?_⟩
        · cases blocks <;> cases hst
        · exact (hor.elim (Nat.not_lt_of_le hle) hshort).elim
    | false =>
        refine ⟨fun _ => ?_, fun _ => rfl⟩
        by_contra hnot
        rw [not_or] at hnot
        exact Bool.false_ne_true (hok.2 ⟨Nat.le_of_not_lt hnot.1, hnot.2⟩)
  · have htrue : ok = true := by
      cases ok with
      | true => rfl
      | false => cases hopen
    obtain ⟨hall, hrest⟩ := hh.rest htrue
    refine ⟨hh.rep, (hh.ok_iff.1 htrue).1, ?_, ?_⟩
    · show s₂.readBuf.held = lastLine 10 s₂.received
      rw [hreceived, hlast]
      exact hrest
    · show linesServed handle (tracker, 0) (completeLines 10 s₂.received) = completeLines 10 s₂.received
      rw [hreceived, hlines, hsplit]
      exact congrArg _ hall

/-- What a wakeup does in which the buffer is read straight. -/
theorem step_handled {h : History (State σ) Wakeup} {s : State σ} {e : Wakeup} (hrep : s.readBuf.Rep)
    (hcount : s.seqErrorCount ≤ maxSeqErrorCount) (hstraight : Straight h s e) (hopen : s.status = .connected)
    (hreads : ∀ data ∈ e.reads, 1 ≤ data.length ∧ data.length ≤ bufSize) :
    ∃ b ok s₂, b.held = s.readBuf.held ++ e.reads.flatten ∧ Handled handle (s.fill b e.reads.flatten) ok s₂ ∧
      step handle s e = some (s₂.close (if ok then (if e.blocks then .connected else .hungUp) else .refused)) := by
  obtain ⟨b, hfill, hrep', hheld', hr⟩ := fill_spec hrep e.reads
  have hread := readable_of_straight hrep hstraight hrep' hheld' hr
  have hh : Handled handle (s.fill b e.reads.flatten)
      (readHandler handle b.size (s.fill b e.reads.flatten)).1
      (readHandler handle b.size (s.fill b e.reads.flatten)).2 :=
    readHandler_spec (Nat.le_refl _) hrep' hread hcount
  refine ⟨b, _, _, hheld', hh, ?_⟩
  unfold step
  rw [if_pos ⟨hopen, hreads⟩]
  unfold eventHandler
  rw [hfill]
  rfl

/-- A wakeup in which the buffer is read straight keeps the lines framed. -/
theorem sound_step {tracker : σ} {h h' : History (State σ) Wakeup} {s s' : State σ} {e : Wakeup}
    (hs : Sound handle tracker h s) (hstraight : Straight h s e) (hstep : step handle s e = some s') :
    Sound handle tracker h' s' := by
  -- Only an open connection is woken up.
  have hen : s.status = .connected ∧ ∀ data ∈ e.reads, 1 ≤ data.length ∧ data.length ≤ bufSize := by
    unfold step at hstep
    split at hstep
    · assumption
    · cases hstep
  have hwaiting := hs.waiting hen.1
  obtain ⟨b, ok, s₂, hheld, hh, hstep'⟩ := step_handled hwaiting.rep hwaiting.count_le hstraight hen.1 hen.2
  obtain rfl := Option.some.inj (hstep.symm.trans hstep')
  exact sound_of_handled hs.framed hwaiting hheld hh

/-- In a run whose wakeups all read the buffer straight, the lines are framed in every state. -/
theorem framed_of_straight {tracker : σ} {h : History (State σ) Wakeup} {s : State σ}
    (hrun : Run (Step handle) (State.init tracker) h s) (hstraight : StepsMeet Straight h) :
    Along (Framed handle tracker) h s := by
  refine Run.along_of_stepsMeet (sound_init tracker) ?_ (fun hs => hs.framed) hrun hstraight
  intro h s e s' hs hok hstep
  exact sound_step hs hok hstep

/-! ## A line that ends before the end of the array -/

/-- A wakeup that takes one line out of the buffer and empties it. -/
theorem readHandler_one {s : State σ} {line : List UInt8} {buf : CircularBuffer} {tracker : σ} {fuel : Nat}
    (hsize : s.readBuf.size ≠ 0) (hhave : s.readBuf.haveLine = true)
    (hread : s.readBuf.readUntil 10 = (line, buf)) (hempty : buf.size = 0) (hword : isBlank line = false)
    (hhandle : handle s.tracker line = (tracker, false)) (hfew : s.seqErrorCount < maxSeqErrorCount) :
    readHandler handle (fuel + 2) s =
      (true, (s.takeLine line buf).answer tracker (s.seqErrorCount + 1)) := by
  have hhandle' : handle (s.takeLine line buf).tracker line = (tracker, false) := hhandle
  have hfew' : ¬ maxSeqErrorCount <
      ((s.takeLine line buf).answer tracker ((s.takeLine line buf).seqErrorCount + 1)).seqErrorCount :=
    Nat.not_lt_of_le hfew
  have hempty' : ((s.takeLine line buf).answer tracker
      ((s.takeLine line buf).seqErrorCount + 1)).readBuf.size = 0 := hempty
  rw [readHandler, if_neg hsize, if_neg (by rw [hhave]; exact Bool.true_eq_false.mp), hread]
  dsimp only
  rw [if_neg (by rw [hword]; exact Bool.false_ne_true), hhandle']
  dsimp only
  rw [if_neg hfew', readHandler, if_pos hempty']
  rfl

theorem step_one {s : State σ} {reads : List (List UInt8)} {b buf : CircularBuffer} {line : List UInt8}
    {tracker : σ} (hopen : s.status = .connected)
    (hreads : ∀ data ∈ reads, 1 ≤ data.length ∧ data.length ≤ bufSize)
    (hfill : reads.foldlM CircularBuffer.append s.readBuf = some b) (hsize : 2 ≤ b.size)
    (hhave : b.haveLine = true) (hread : b.readUntil 10 = (line, buf)) (hempty : buf.size = 0)
    (hword : isBlank line = false) (hhandle : handle s.tracker line = (tracker, false))
    (hfew : s.seqErrorCount < maxSeqErrorCount) :
    step handle s { reads := reads, blocks := true } = some
      { readBuf := buf
        tracker := tracker
        seqErrorCount := s.seqErrorCount + 1
        status := .connected
        received := s.received ++ reads.flatten
        lines := s.lines ++ [line] } := by
  obtain ⟨fuel, hfuel⟩ : ∃ fuel, b.size = fuel + 2 := ⟨b.size - 2, by omega⟩
  have hone : readHandler handle (fuel + 2) (s.fill b reads.flatten) =
      (true, ((s.fill b reads.flatten).takeLine line buf).answer tracker (s.seqErrorCount + 1)) :=
    readHandler_one (show b.size ≠ 0 by omega) hhave hread hempty hword hhandle hfew
  unfold step
  rw [if_pos ⟨hopen, hreads⟩]
  unfold eventHandler
  dsimp only
  rw [hfill]
  dsimp only [Option.bind_eq_bind, Option.bind_some]
  rw [hfuel, hone]
  rfl

/-- A connection with an empty buffer that is read straight takes the line it is sent. -/
theorem step_line {s : State σ} {reads : List (List UInt8)} {line : List UInt8} {tracker : σ}
    (hopen : s.status = .connected) (hrep : s.readBuf.Rep) (hempty : s.readBuf.held = [])
    (hreads : ∀ data ∈ reads, 1 ≤ data.length ∧ data.length ≤ bufSize)
    (hflat : reads.flatten = line ++ [10]) (hline : 10 ∉ line) (hword : isBlank line = false)
    (hfits : s.readBuf.r + (line.length + 1) ≤ s.readBuf.capacity)
    (hhandle : handle s.tracker line = (tracker, false)) (hfew : s.seqErrorCount < maxSeqErrorCount) :
    ∃ buf : CircularBuffer, buf.Rep ∧ buf.held = [] ∧ buf.r = s.readBuf.r + line.length + 1 ∧
      buf.capacity = s.readBuf.capacity ∧
      step handle s { reads := reads, blocks := true } = some
        { readBuf := buf
          tracker := tracker
          seqErrorCount := s.seqErrorCount + 1
          status := .connected
          received := s.received ++ reads.flatten
          lines := s.lines ++ [line] } := by
  have hzero := hrep.length_held
  rw [hempty, List.length_nil] at hzero
  obtain ⟨b, hfill, hrep₁, hheld, hr⟩ := fill_spec hrep reads
  rw [hempty, List.nil_append, hflat] at hheld
  have hsize := hrep₁.length_held
  rw [hheld, List.length_append, List.length_singleton] at hsize
  rw [hflat, List.length_append, List.length_singleton] at hr
  obtain ⟨hr₁, hcap₁⟩ : b.r = s.readBuf.r ∧ b.capacity = s.readBuf.capacity := by
    rcases hr with ⟨-, hr⟩ | ⟨hover, -⟩
    · exact hr
    · unfold CircularBuffer.remainingSpace at hover
      omega
  have hwrap : ¬ b.Wrapped := by
    unfold CircularBuffer.Wrapped
    omega
  have hne : line ≠ [] := by
    rintro rfl
    cases hword
  obtain ⟨buf, hread, hrep', -, hheld', hr', hcap'⟩ := hrep₁.readUntil_straight hwrap hline hheld
  have hlength := hrep'.length_held
  rw [hheld', List.length_nil] at hlength
  have hhave : b.haveLine = true :=
    (hrep₁.haveLine_iff fun h => absurd h hwrap).2 (by rw [hheld]; simp)
  have hpos := List.length_pos_iff.2 hne
  exact ⟨buf, ⟨hrep', hcap' ▸ hrep₁.large⟩, hheld', by rw [hr', hr₁], hcap'.trans hcap₁,
    step_one hopen hreads hfill (by omega) hhave hread hlength.symm hword hhandle hfew⟩

/-- Every request fails, as one with an unknown keyword does. -/
def refuse : Unit → List UInt8 → Unit × Bool := fun _ _ => ((), false)

/-- A line in two reads; then, in the next wakeup, a line without a keyword, another line, and the start of a third. -/
theorem framed_of_straight_two_wakeups : ∃ h s, Run (Step refuse) (State.init ()) h s ∧ h.length = 2 ∧
    Along (Framed refuse ()) h s ∧ s.lines = [[104, 105], [], [121, 111]] ∧ lastLine 10 s.received = [97, 98] := by
  have hflat : ([[104], [105, 10]] : List (List UInt8)).flatten = [104, 105] ++ [10] := rfl
  have hhandle : refuse (State.init ()).tracker [104, 105] = ((), false) := rfl
  obtain ⟨buf, hrep, hheld, hr, hcap, hstep⟩ := step_line rfl (CircularBuffer.rep_new (by decide)) rfl (by decide) hflat
    (by decide) rfl (by decide) hhandle (by decide)
  have hr : buf.r = 3 := hr
  have hcap : buf.capacity = 32768 := hcap
  have hzero := hrep.length_held
  rw [hheld, List.length_nil] at hzero
  let s₁ : State Unit := ⟨buf, (), 1, .connected, [104, 105, 10], [[104, 105]]⟩
  let e : Wakeup := ⟨[[10, 121], [111, 10, 97, 98]], true⟩
  have hstraight : Straight [(State.init (), ⟨[[104], [105, 10]], true⟩)] s₁ e := by
    refine .inr (.inl ?_)
    show buf.r + buf.size + 6 ≤ buf.capacity
    omega
  have hcount : s₁.seqErrorCount ≤ maxSeqErrorCount := Nat.succ_le_succ (Nat.zero_le 4)
  obtain ⟨b, ok, s₂, -, hh, hstep₂⟩ := step_handled hrep hcount hstraight rfl (by decide)
  have hrun : Run (Step refuse) (State.init ()) [(s₁, e), (State.init (), ⟨[[104], [105, 10]], true⟩)] _ :=
    .next (.next .start hstep) hstep₂
  have hframed := framed_of_straight hrun ⟨hstraight, .inr (.inl (by decide)), trivial⟩
  have hreceived : s₂.received = [104, 105, 10] ++ [10, 121, 111, 10, 97, 98] := hh.received_eq
  refine ⟨_, _, hrun, rfl, hframed, ?_, ?_⟩
  · have hlines : s₂.lines = linesServed refuse ((), 0) (completeLines 10 s₂.received) := hframed.1.lines_eq
    show s₂.lines = _
    rw [hlines, hreceived]
    decide
  · show lastLine 10 s₂.received = _
    rw [hreceived]
    decide

/-- A line whose end is the last but one byte before the end of the array, with one byte behind it at the
start: the two are read as one line. -/
theorem readUntil_lost {b : CircularBuffer} (h : b.Rep) (hheld : b.held = [97, 10, 98])
    (hr : b.r + 2 = b.capacity) : b.haveLine = true ∧ ∃ buf, b.readUntil 10 = ([97, 98], buf) ∧ buf.size = 0 := by
  have hsize := h.length_held
  rw [hheld] at hsize
  have hsize : b.size = 3 := hsize.symm
  have hlarge := h.large
  have hwrap : b.Wrapped := by
    unfold CircularBuffer.Wrapped
    omega
  have hw := h.w_eq
  have hcells := h.held_eq
  rw [if_pos hwrap] at hw hcells
  have hw : b.w = 1 := by omega
  have hend : (b.buf.drop b.r).length = 2 := by
    rw [List.length_drop, h.length_eq]
    omega
  rw [hheld, hw] at hcells
  have hsplit : b.buf.drop b.r ++ b.buf.take 1 = [97, 10] ++ [98] := hcells.symm
  obtain ⟨hfirst, hsecond⟩ := List.append_inj hsplit hend
  refine ⟨(h.contains_iff fun _ => .inl (by omega)).2 (by rw [hheld]; decide), ?_⟩
  have hcut : b.capacity - b.r = 2 := by omega
  have hone : b.readTo 10 b.capacity = ([97], { b with r := b.r + 1, size := b.size - 1 }) := by
    unfold CircularBuffer.readTo
    rw [hfirst, hcut]
    rfl
  have htwo : ({ b with r := 0, size := b.size - 1 } : CircularBuffer).readTo 10 b.w =
      ([98], { b with r := 1, size := b.size - 1 - 1 }) := by
    unfold CircularBuffer.readTo
    dsimp only
    rw [hw, Nat.sub_zero, List.drop_zero, hsecond]
    rfl
  unfold CircularBuffer.readUntil
  rw [if_pos (show b.w < b.r by omega), hone]
  dsimp only
  rw [htwo]
  refine ⟨_, rfl, ?_⟩
  rw [if_pos (show 0 < b.size - 1 - 1 by omega)]
  dsimp only
  omega

/-- A line that leaves two bytes of the array, and in a second wakeup "a", a newline and "b": the line taken
then is "ab". -/
theorem line_lost {reads : List (List UInt8)} {line : List UInt8} (hlen : line.length = 32765)
    (hreads : ∀ data ∈ reads, 1 ≤ data.length ∧ data.length ≤ bufSize)
    (hflat : reads.flatten = line ++ [10]) (hline : 10 ∉ line) (hword : isBlank line = false) :
    ∃ h s, replay (step refuse) [] (State.init ()) [⟨reads, true⟩, ⟨[[97, 10, 98]], true⟩] = some (h, s) ∧
      Run (Step refuse) (State.init ()) h s ∧ ¬ Framed refuse () h s := by
  have hhandle : refuse (State.init ()).tracker line = ((), false) := rfl
  obtain ⟨b₁, hrep₁, hheld₁, hr₁, hcap₁, hstep₁⟩ := step_line rfl (CircularBuffer.rep_new (by decide)) rfl hreads
    hflat hline hword (show 0 + (line.length + 1) ≤ sockBufSize by rw [hlen]; decide) hhandle (by decide)
  have hr₁ : b₁.r = 0 + line.length + 1 := hr₁
  have hcap₁ : b₁.capacity = 32768 := hcap₁
  have hzero := hrep₁.length_held
  rw [hheld₁, List.length_nil] at hzero
  obtain ⟨b₂, hfill, hrep₂, hheld₂, hr₂⟩ := fill_spec hrep₁ [[97, 10, 98]]
  rw [hheld₁, List.nil_append] at hheld₂
  have hroom : ¬ b₁.remainingSpace < ([[97, 10, 98]] : List (List UInt8)).flatten.length := by
    unfold CircularBuffer.remainingSpace
    show ¬ b₁.capacity - b₁.size < 3
    omega
  obtain ⟨-, hr₂, hcap₂⟩ := hr₂.resolve_right fun h => hroom h.1
  obtain ⟨hhave, b₃, hread, hempty⟩ := readUntil_lost hrep₂ hheld₂ (by omega)
  have hsize₂ : b₂.size = 3 := by
    rw [← hrep₂.length_held, hheld₂]
    rfl
  have hstep₂ := step_one (s := ⟨b₁, (), 1, .connected, line ++ [10], [line]⟩) rfl (by decide) hfill (by omega)
    hhave hread hempty rfl (show refuse () [97, 98] = ((), false) from rfl) (show 1 < 5 by decide)
  rw [hflat] at hstep₁
  have hstep₁ : step refuse (State.init ()) ⟨reads, true⟩ =
      some ⟨b₁, (), 1, .connected, line ++ [10], [line]⟩ := hstep₁
  refine ⟨_, _, ?_, (Run.start.next hstep₁).next hstep₂, fun hframed => ?_⟩
  · simp only [replay, hstep₁, hstep₂]
  · have hcut : completeLines 10 (line ++ [10] ++ [97, 10, 98]) = [line, [97]] := by
      have hsplit : line ++ [10] ++ [97, 10, 98] = line ++ 10 :: ([97] ++ 10 :: [98]) := by simp
      rw [hsplit, completeLines_line hline, completeLines_line (by decide),
        completeLines_of_not_mem (by decide)]
    have hlines : [line] ++ [[97, 98]] =
        linesServed refuse ((), 0) (completeLines 10 (line ++ [10] ++ [97, 10, 98])) := hframed.lines_eq
    rw [hcut, linesServed, List.singleton_append, List.cons.injEq] at hlines
    obtain ⟨-, hlines⟩ := hlines
    split at hlines
    · cases hlines
    · rw [linesServed, List.cons.injEq] at hlines
      exact absurd hlines.1 (by decide)

/-- The first line is "x" 32765 times, in reads of at most 1024 bytes. -/
theorem line_lost_after_32766_bytes :
    ∃ h s, replay (step refuse) [] (State.init ())
        [⟨List.replicate 31 (List.replicate 1024 120) ++ [List.replicate 1021 120 ++ [10]], true⟩,
          ⟨[[97, 10, 98]], true⟩] = some (h, s) ∧
      Run (Step refuse) (State.init ()) h s ∧ ¬ Framed refuse () h s := by
  have hflat : (List.replicate 31 (List.replicate 1024 (120 : UInt8)) ++
      [List.replicate 1021 120 ++ [10]]).flatten = List.replicate 32765 120 ++ [10] := by
    rw [List.flatten_append, List.flatten_replicate_replicate, List.flatten_singleton, ← List.append_assoc,
      List.replicate_append_replicate]
  refine line_lost List.length_replicate ?_ hflat ?_ ?_
  · intro data hdata
    rcases List.mem_append.1 hdata with hdata | hdata
    · obtain ⟨-, rfl⟩ := List.mem_replicate.1 hdata
      rw [List.length_replicate]
      decide
    · obtain rfl := List.mem_singleton.1 hdata
      rw [List.length_append, List.length_replicate]
      decide
  · rw [List.mem_replicate]
    decide
  · unfold isBlank
    rw [List.all_replicate]
    rfl

end ReadBuffer
end CppTracker
end Raiezau
