import Raiezau.CppTracker.CircularBuffer
import Raiezau.Machine.Run

/-!
# WriteBuffer — how the C++ tracker sends its replies

`ClientSocket::write` and `SocketWriter::eventHandler`.  A message is put into the write buffer; the writer
is armed then, and every event of it hands the descriptor what the buffer holds, one write or two.
-/

namespace Raiezau
namespace CppTracker
namespace WriteBuffer

open Machine Bytes

/-! ## Model -/

/-- `SOCK_BUF_SIZE`. -/
def sockBufSize : Nat := 32768

/-- `registered` is false once `eventHandler` has returned false. -/
structure Writer where
  armed : Bool
  registered : Bool
  deriving DecidableEq, Repr

/-- `accepted` are the bytes the descriptor took so far, `written` the messages so far. -/
structure State where
  writeBuf : CircularBuffer
  sockWriter : Option Writer
  accepted : List UInt8
  written : List UInt8
  deriving DecidableEq, Repr

def State.init : State :=
  { writeBuf := CircularBuffer.new sockBufSize
    sockWriter := none
    accepted := []
    written := [] }

/-- A writer event comes with the outcomes of its writes, and with what `errno` says of a negative result
after them: is it `EAGAIN`? -/
inductive Event
  | write (msg : List UInt8)
  | writer (first second : SysWrite) (wouldBlock : Bool)
  deriving DecidableEq, Repr

def rearm (w : Writer) : Writer := { w with armed := true }

/-- `ClientSocket::write`. -/
def write (s : State) (msg : List UInt8) : Option State :=
  if msg = [] then some s
  else do
    let buf ← s.writeBuf.append msg
    let writer :=
      match s.sockWriter with
      | some w => rearm w
      | none => { armed := true, registered := true }
    some { s with writeBuf := buf, sockWriter := some writer, written := s.written ++ msg }

/-- `SocketWriter::eventHandler`. -/
def eventHandler (s : State) (w : Writer) (first second : SysWrite) (wouldBlock : Bool) : State :=
  let w := { w with armed := false }
  let bsize := s.writeBuf.size
  if bsize = 0 then { s with sockWriter := some w }
  else
    let (r, out, buf) := s.writeBuf.writeToFd first second
    let w := if 0 < r ∧ r.toNat < bsize then rearm w else w
    let w := if r = 0 ∨ (r < 0 ∧ wouldBlock = false) then { w with registered := false } else w
    { s with writeBuf := buf, sockWriter := some w, accepted := s.accepted ++ out }

/-- The event loop wakes an armed writer; `EAGAIN` of the last write is what `errno` says then. -/
def step (s : State) : Event → Option State
  | .write msg => write s msg
  | .writer first second wouldBlock =>
      match s.sockWriter with
      | some w =>
          if w.armed ∧ w.registered ∧ (s.writeBuf.size ≠ 0 → s.writeBuf.Outcomes first second) then
            some (eventHandler s w first second wouldBlock)
          else none
      | none => none

def Step (s : State) (e : Event) (s' : State) : Prop := step s e = some s'

/-- What was accepted, followed by what is held, is what was written. -/
def Delivered (_ : History State Event) (s : State) : Prop :=
  s.accepted ++ s.writeBuf.held = s.written ∧
    s.accepted.length + s.writeBuf.size = s.written.length

instance (h : History State Event) (s : State) : Decidable (Delivered h s) :=
  inferInstanceAs (Decidable (_ ∧ _))

/-- The writes of an event all fit an `int`, and no write from the start of the array falls short. -/
def NotCutShort (_ : History State Event) (s : State) : Event → Prop
  | .write _ => True
  | .writer first second _ => s.writeBuf.size = 0 ∨ s.writeBuf.WritesWhole first second

/-! ## Runs -/

/-- The buffer is sound, and never read up to its last byte. -/
structure Sound (s : State) : Prop where
  rep : s.writeBuf.Rep
  r_lt : s.writeBuf.r < s.writeBuf.capacity

theorem sound_init : Sound State.init := ⟨CircularBuffer.rep_new (by decide), by decide⟩

theorem delivered_init : Delivered [] State.init := ⟨rfl, rfl⟩

theorem Sound.delivered_iff_length {h : History State Event} {s : State} (hs : Sound s)
    (hheld : s.accepted ++ s.writeBuf.held = s.written) : Delivered h s := by
  refine ⟨hheld, ?_⟩
  rw [← hheld, List.length_append, hs.rep.length_held]

/-- A message joins what is held. -/
theorem write_step {h h' : History State Event} {s s' : State} {msg : List UInt8} (hs : Sound s)
    (hd : Delivered h s) (hstep : write s msg = some s') : Sound s' ∧ Delivered h' s' := by
  unfold write at hstep
  split at hstep
  · cases hstep
    exact ⟨hs, hd⟩
  · obtain ⟨buf, happend, hrep, hheld, hr⟩ := hs.rep.append msg
    rw [happend] at hstep
    cases hstep
    have hsound : buf.r < buf.capacity := by
      rcases hr with ⟨-, hr, hcap⟩ | ⟨-, hr⟩
      · rw [hr, hcap]
        exact hs.r_lt
      · have := hrep.large
        omega
    have hs' : Sound
        { s with
          writeBuf := buf
          sockWriter := some (match s.sockWriter with
            | some w => rearm w
            | none => { armed := true, registered := true })
          written := s.written ++ msg } := ⟨hrep, hsound⟩
    refine ⟨hs', hs'.delivered_iff_length ?_⟩
    show s.accepted ++ buf.held = s.written ++ msg
    rw [hheld, ← List.append_assoc, hd.1]

/-- A writer event keeps the count of the bytes exactly when no write is cut short. -/
theorem eventHandler_step {h h' : History State Event} {s : State} {w : Writer} {first second : SysWrite}
    {wouldBlock : Bool} (hs : Sound s) (hd : Delivered h s)
    (hposs : s.writeBuf.size ≠ 0 → s.writeBuf.Outcomes first second) :
    (Delivered h' (eventHandler s w first second wouldBlock) ↔
        s.writeBuf.size = 0 ∨ s.writeBuf.WritesWhole first second) ∧
      (s.writeBuf.size = 0 ∨ s.writeBuf.WritesWhole first second →
        Sound (eventHandler s w first second wouldBlock)) := by
  unfold eventHandler
  dsimp only
  by_cases hzero : s.writeBuf.size = 0
  · rw [if_pos hzero]
    exact ⟨⟨fun _ => .inl hzero, fun _ => hd⟩, fun _ => ⟨hs.rep, hs.r_lt⟩⟩
  · rw [if_neg hzero]
    -- A write that is cut short is counted wrongly, and the sizes no longer add up.
    by_cases hwhole : s.writeBuf.WritesWhole first second
    · obtain ⟨hrep, hr, hheld⟩ := hs.rep.writeToFd_whole hs.r_lt (hposs hzero) hwhole
      generalize s.writeBuf.writeToFd first second = res at hrep hr hheld ⊢
      refine ⟨⟨fun _ => .inr hwhole, fun _ => ⟨?_, ?_⟩⟩, fun _ => ⟨hrep, hr⟩⟩
      · show (s.accepted ++ res.2.1) ++ res.2.2.held = s.written
        rw [List.append_assoc, hheld]
        exact hd.1
      · show (s.accepted ++ res.2.1).length + res.2.2.size = s.written.length
        rw [← hrep.length_held, ← List.length_append, List.append_assoc, hheld, hd.1]
    · have hpart := hs.rep.writeToFd_part (hposs hzero) hwhole
      generalize s.writeBuf.writeToFd first second = res at hpart ⊢
      refine ⟨⟨?_, fun hor => absurd (hor.resolve_left hzero) hwhole⟩,
        fun hor => absurd (hor.resolve_left hzero) hwhole⟩
      rintro ⟨-, hcount⟩
      have hcount : (s.accepted ++ res.2.1).length + res.2.2.size = s.written.length := hcount
      have hbefore := hd.2
      rw [List.length_append] at hcount
      omega

theorem delivered_step {h : History State Event} {s s' : State} {e : Event} (hs : Sound s)
    (hd : Delivered h s) (hstep : step s e = some s') :
    (Delivered ((s, e) :: h) s' ↔ NotCutShort h s e) ∧ (NotCutShort h s e → Sound s') := by
  cases e with
  | write msg =>
      obtain ⟨hs', hd'⟩ := write_step hs hd hstep
      exact ⟨⟨fun _ => trivial, fun _ => hd'⟩, fun _ => hs'⟩
  | writer first second wouldBlock =>
      dsimp only [step] at hstep
      split at hstep
      · split at hstep
        · next hen =>
            cases hstep
            exact eventHandler_step hs hd hen.2.2
        · cases hstep
      · cases hstep

theorem write_of_room {s : State} {msg : List UInt8} (hs : Sound s) (hmsg : msg ≠ [])
    (hroom : msg.length ≤ s.writeBuf.remainingSpace) :
    ∃ s', write s msg = some s' ∧
      s'.sockWriter = some (match s.sockWriter with
        | some w => rearm w
        | none => { armed := true, registered := true }) ∧
      s'.writeBuf.size = s.writeBuf.size + msg.length ∧ s'.writeBuf.capacity = s.writeBuf.capacity ∧
      s'.writeBuf.r = s.writeBuf.r ∧ s'.written = s.written ++ msg := by
  obtain ⟨b, happend, -, hsize, hcap, hr⟩ := hs.rep.append_of_room hroom
  unfold write
  rw [if_neg hmsg, happend]
  exact ⟨_, rfl, rfl, hsize, hcap, hr, rfl⟩

/-- A descriptor that takes a part of a buffer that is not wrapped. -/
theorem step_of_part (s : State) (k : Nat) (second : SysWrite) (wouldBlock : Bool)
    (hw : s.sockWriter = some { armed := true, registered := true }) (hk0 : 0 < k)
    (hk : k < s.writeBuf.size) (hsmall : k < 2 ^ 31)
    (hfits : s.writeBuf.r + s.writeBuf.size ≤ s.writeBuf.capacity) :
    ∃ s', step s (.writer (.accepts k) second wouldBlock) = some s' ∧
      s'.sockWriter = some { armed := true, registered := true } ∧
      s'.writeBuf.size = s.writeBuf.size - k ∧ s'.writeBuf.capacity = s.writeBuf.capacity ∧
      s'.writeBuf.r = s.writeBuf.r + k ∧ s'.written = s.written := by
  have hret : (SysWrite.accepts k).ret = k := SysWrite.ret_accepts hsmall
  have hposs : s.writeBuf.Outcomes (.accepts k) second := by
    have hwrap : ¬ s.writeBuf.Wrapped := Nat.not_lt_of_le hfits
    unfold CircularBuffer.Outcomes
    rw [if_neg hwrap]
    exact ⟨hk0, Nat.le_of_lt hk⟩
  unfold step
  dsimp only
  rw [hw]
  dsimp only
  rw [if_pos ⟨rfl, rfl, fun _ => hposs⟩]
  unfold eventHandler
  dsimp only
  rw [if_neg (show ¬ s.writeBuf.size = 0 by omega), CircularBuffer.writeToFd_straight hfits, hret,
    Int.toNat_natCast, if_neg (show ¬ (k : Int) ≤ 0 by omega), if_pos hk]
  dsimp only
  rw [Int.toNat_natCast, if_pos (show 0 < (k : Int) ∧ k < s.writeBuf.size by omega),
    if_neg (show ¬ ((k : Int) = 0 ∨ ((k : Int) < 0 ∧ wouldBlock = false)) by omega)]
  exact ⟨_, rfl, rfl, rfl, rfl, rfl, rfl⟩

/-- A first message, of which the descriptor takes a part. -/
theorem exists_first_part {msg : List UInt8} {k : Nat} (hlen : msg.length ≤ sockBufSize) (hk0 : 0 < k)
    (hk : k < msg.length) :
    ∃ s₁ s₂, Step State.init (.write msg) s₁ ∧ Step s₁ (.writer (.accepts k) .again false) s₂ ∧
      (s₁.writeBuf.WritesWhole (.accepts k) .again ∧ Sound s₂ ∧ Delivered [] s₂) ∧
      s₂.sockWriter = some { armed := true, registered := true } ∧ s₂.writeBuf.size = msg.length - k ∧
      s₂.writeBuf.capacity = sockBufSize ∧ s₂.writeBuf.r = k ∧ s₂.written = msg := by
  have hbuf : sockBufSize < 2 ^ 31 := by decide
  obtain ⟨s₁, hstep₁, hw₁, hsize₁, hcap₁, hr₁, hwritten₁⟩ :=
    write_of_room sound_init (List.ne_nil_of_length_pos (Nat.zero_lt_of_lt hk)) hlen
  have hsize₁ : s₁.writeBuf.size = msg.length := hsize₁.trans (Nat.zero_add _)
  have hcap₁ : s₁.writeBuf.capacity = sockBufSize := hcap₁
  have hr₁ : s₁.writeBuf.r = 0 := hr₁
  obtain ⟨s₂, hstep₂, hw₂, hsize₂, hcap₂, hr₂, hwritten₂⟩ :=
    step_of_part s₁ k .again false hw₁ hk0 (by omega) (by omega) (by omega)
  have hwhole : s₁.writeBuf.WritesWhole (.accepts k) .again := by
    have hwrap : ¬ s₁.writeBuf.Wrapped := by
      unfold CircularBuffer.Wrapped
      omega
    exact ⟨show k < 2 ^ 31 by omega, fun h => absurd h hwrap⟩
  obtain ⟨hs₁, hd₁⟩ : Sound s₁ ∧ Delivered [] s₁ := write_step sound_init delivered_init hstep₁
  obtain ⟨hiff, hs₂⟩ := delivered_step hs₁ hd₁ hstep₂
  refine ⟨s₁, s₂, hstep₁, hstep₂, ⟨hwhole, hs₂ (.inr hwhole), hiff.2 (.inr hwhole)⟩, hw₂, ?_, ?_, ?_, ?_⟩
  · rw [hsize₂, hsize₁]
  · rw [hcap₂, hcap₁]
  · rw [hr₂, hr₁, Nat.zero_add]
  · exact hwritten₂.trans hwritten₁

/-- In every run, the bytes are all there in every state exactly when no write from the start of the array
falls short. -/
theorem delivered_iff {h : History State Event} {s : State} (hrun : Run Step State.init h s) :
    Along Delivered h s ↔ StepsMeet NotCutShort h := by
  refine Run.along_iff_stepsMeet_of_invariant delivered_init sound_init ?_ hrun
  intro h s e s' _ hs hd hstep
  exact delivered_step hs hd hstep

/-- A reply of three bytes, of which the descriptor takes two, and then another one. -/
theorem delivered_iff_two_replies :
    ∃ h s, h.map Prod.snd = [.write [111, 107, 10], .writer (.accepts 2) .again false, .write [111, 107, 10]] ∧
      Run Step State.init h s ∧ Along Delivered h s ∧ s.accepted = [111, 107] := by
  obtain ⟨s₁, s₂, hstep₁, hstep₂, ⟨hwhole, hs₂, -⟩, -, hsize₂, hcap₂, -, hwritten₂⟩ :=
    exists_first_part (k := 2) (show [111, 107, 10].length ≤ sockBufSize by decide) (by decide) (by decide)
  have hroom₂ : ([111, 107, 10] : List UInt8).length ≤ s₂.writeBuf.remainingSpace := by
    unfold CircularBuffer.remainingSpace
    rw [hcap₂, hsize₂]
    decide
  obtain ⟨s₃, hstep₃, -, hsize₃, -, -, hwritten₃⟩ :=
    write_of_room hs₂ (List.cons_ne_nil 111 [107, 10]) hroom₂
  have hrun : Run Step State.init [(s₂, .write [111, 107, 10]), (s₁, .writer (.accepts 2) .again false),
      (State.init, .write [111, 107, 10])] s₃ := .next (.next (.next .start hstep₁) hstep₂) hstep₃
  have halong := (delivered_iff hrun).2 ⟨trivial, .inr hwhole, trivial, trivial⟩
  obtain ⟨hheld, hcount⟩ := halong.last
  have hwritten : s₃.written = [111, 107, 10, 111, 107, 10] := by
    rw [hwritten₃, hwritten₂]
    rfl
  rw [hwritten] at hheld hcount
  have hsize : s₃.writeBuf.size = 4 := by
    rw [hsize₃, hsize₂]
    rfl
  have htaken : s₃.accepted.length = 2 := Nat.add_right_cancel (hsize ▸ hcount)
  refine ⟨_, s₃, rfl, hrun, halong, ?_⟩
  exact List.append_inj_left hheld htaken

/-! ## A second write that is refused -/

/-- The buffer is filled, ten bytes are taken, and five more are put at the start of the array.  The
descriptor then takes all that comes before the end of the array and refuses the five: nothing is taken off
the buffer, and all of it is sent again. -/
theorem second_write_lost {long short : List UInt8} (hlong : long.length = 32768) (hshort : short.length = 5) :
    ∃ h s, replay step [] State.init [.write long, .writer (.accepts 10) .again false, .write short,
        .writer (.accepts 32758) .again true] = some (h, s) ∧
      Run Step State.init h s ∧ ¬ Delivered h s := by
  obtain ⟨s₁, s₂, hstep₁, hstep₂, ⟨-, hs₂, hd₂⟩, hw₂, hsize₂, hcap₂, hr₂, -⟩ :=
    exists_first_part (k := 10) (Nat.le_of_eq hlong) (by decide) (by omega)
  have hcap₂ : s₂.writeBuf.capacity = 32768 := hcap₂
  have hroom₂ : short.length ≤ s₂.writeBuf.remainingSpace := by
    unfold CircularBuffer.remainingSpace
    omega
  obtain ⟨s₃, hwrite₃, hw₃, hsize₃, hcap₃, hr₃, -⟩ :=
    write_of_room hs₂ (List.ne_nil_of_length_pos (show 0 < short.length by omega)) hroom₂
  obtain ⟨hs₃, hd₃⟩ : Sound s₃ ∧ Delivered [] s₃ := write_step hs₂ hd₂ hwrite₃
  rw [hw₂] at hw₃
  have hwrap₃ : s₃.writeBuf.Wrapped := by
    unfold CircularBuffer.Wrapped
    omega
  have hcut₃ : s₃.writeBuf.capacity - s₃.writeBuf.r = 32758 := by omega
  have hposs₃ : s₃.writeBuf.Outcomes (.accepts 32758) .again := by
    unfold CircularBuffer.Outcomes
    rw [if_pos hwrap₃, hcut₃]
    exact ⟨⟨by omega, by omega⟩, fun _ => trivial⟩
  have hcut : ¬ NotCutShort [] s₃ (.writer (.accepts 32758) .again true) := by
    rintro (hzero | ⟨-, hsecond⟩)
    · omega
    · obtain ⟨-, heq⟩ := hsecond hwrap₃ (by rw [hcut₃])
      cases heq
  have hstep₄ : step s₃ (.writer (.accepts 32758) .again true) =
      some (eventHandler s₃ { armed := true, registered := true } (.accepts 32758) .again true) := by
    dsimp only [step]
    rw [hw₃]
    exact if_pos ⟨rfl, rfl, fun _ => hposs₃⟩
  have hstep₁ : step State.init (.write long) = some s₁ := hstep₁
  have hstep₂ : step s₁ (.writer (.accepts 10) .again false) = some s₂ := hstep₂
  have hstep₃ : step s₂ (.write short) = some s₃ := hwrite₃
  refine ⟨_, _, ?_, (((Run.start.next hstep₁).next hstep₂).next hstep₃).next hstep₄, ?_⟩
  · simp only [replay, hstep₁, hstep₂, hstep₃, hstep₄]
  · intro hd₄
    exact hcut ((delivered_step hs₃ hd₃ hstep₄).1.1 hd₄)

theorem second_write_refused :
    ∃ h s, replay step [] State.init
        [.write (List.replicate 32768 120), .writer (.accepts 10) .again false,
          .write (List.replicate 5 121), .writer (.accepts 32758) .again true] = some (h, s) ∧
      Run Step State.init h s ∧ ¬ Delivered h s :=
  second_write_lost List.length_replicate List.length_replicate

end WriteBuffer
end CppTracker
end Raiezau
