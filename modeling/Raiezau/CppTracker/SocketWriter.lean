import Raiezau.CppTracker.WriteBuffer

/-!
# SocketWriter — when the writer of a connection is woken

`SocketWriter`, with the registration that the event manager keeps for it.  The event is one-shot: it is delivered
once, and not again before it is armed anew.  `_armed` is the writer's own note of that.  A message written between
`epoll_wait` and the handler finds the note still set, as one written before it does, so both are one step here.
-/

namespace Raiezau
namespace CppTracker

/-! ## Model -/

/-- What `epoll` keeps for a one-shot descriptor. -/
inductive Registration
  | absent
  | disarmed
  | armed
  deriving DecidableEq, Repr

namespace Registration

/-- `EPOLL_CTL_ADD` fails for a descriptor that is there. -/
def add : Registration → Registration
  | .absent => .armed
  | r => r

/-- `EPOLL_CTL_MOD` fails for a descriptor that is not there. -/
def mod : Registration → Registration
  | .absent => .absent
  | _ => .armed

end Registration

namespace SocketWriter

open Machine Bytes

structure Writer where
  armed : Bool
  deriving DecidableEq, Repr

structure State where
  writeBuf : CircularBuffer
  sockWriter : Option Writer
  registration : Registration
  deriving DecidableEq, Repr

def State.init : State :=
  { writeBuf := CircularBuffer.new WriteBuffer.sockBufSize
    sockWriter := none
    registration := .absent }

/-- `rearm`; `rearmEvent` does not say whether it failed. -/
def rearm (s : State) (w : Writer) : State :=
  if w.armed then s
  else { s with sockWriter := some { armed := true }, registration := s.registration.mod }

/-- `ClientSocket::write`. -/
def write (s : State) (msg : List UInt8) : Option State :=
  if msg = [] then some s
  else do
    let buf ← s.writeBuf.append msg
    let s := { s with writeBuf := buf }
    match s.sockWriter with
    | some w => some (rearm s w)
    | none => some { s with sockWriter := some { armed := true }, registration := s.registration.add }

/-- `eventHandler`, with its result. -/
def eventHandler (s : State) (first second : SysWrite) (wouldBlock : Bool) : Bool × State :=
  let w : Writer := { armed := false }
  let s := { s with sockWriter := some w }
  let bsize := s.writeBuf.size
  if bsize = 0 then (true, s)
  else
    let (r, _, buf) := s.writeBuf.writeToFd first second
    let s := { s with writeBuf := buf }
    let s := if 0 < r ∧ r.toNat < bsize then rearm s w else s
    (!decide (r = 0 ∨ (r < 0 ∧ wouldBlock = false)), s)

/-- An armed event is delivered, which disarms it; a handler that returns false has it unregistered. -/
def deliver (s : State) (first second : SysWrite) (wouldBlock : Bool) : State :=
  let (ok, s) := eventHandler { s with registration := .disarmed } first second wouldBlock
  if ok then s else { s with registration := .absent }

def step (s : State) : WriteBuffer.Event → Option State
  | .write msg => write s msg
  | .writer first second wouldBlock =>
      match s.sockWriter with
      | some _ =>
          if s.registration = .armed ∧ (s.writeBuf.size ≠ 0 → s.writeBuf.Outcomes first second) then
            some (deliver s first second wouldBlock)
          else none
      | none => none

def Step (s : State) (e : WriteBuffer.Event) (s' : State) : Prop := step s e = some s'

/-! ## Never asleep with data -/

/-- While bytes are held and the writer is registered its note is set, and where it is set the event is armed. -/
def Awake (_ : History State WriteBuffer.Event) (s : State) : Prop :=
  ∀ w ∈ s.sockWriter, (s.registration ≠ .absent → s.writeBuf.size ≠ 0 → w.armed = true) ∧
    (w.armed = true → s.registration = .armed)

instance (h : History State WriteBuffer.Event) (s : State) : Decidable (Awake h s) :=
  inferInstanceAs (Decidable (∀ w ∈ s.sockWriter, _ ∧ _))

end SocketWriter

/-- The last write that is made of a buffer fails. -/
def CircularBuffer.Refused (b : CircularBuffer) (first second : SysWrite) : Prop :=
  first.ret < 0 ∨ (b.Wrapped ∧ 0 < first.ret ∧ b.capacity - b.r ≤ first.ret.toNat ∧ second.ret < 0)

instance (b : CircularBuffer) (first second : SysWrite) : Decidable (b.Refused first second) :=
  inferInstanceAs (Decidable (_ ∨ _))

namespace SocketWriter

open Machine Bytes

/-- No message is written once the writer is unregistered, and no write of an event ends in `EAGAIN`. -/
def NotRefused (_ : History State WriteBuffer.Event) (s : State) : WriteBuffer.Event → Prop
  | .write msg => msg = [] ∨ s.sockWriter = none ∨ s.registration ≠ .absent
  | .writer first second wouldBlock =>
      s.writeBuf.size = 0 ∨ wouldBlock = false ∨ ¬ s.writeBuf.Refused first second

instance (h : History State WriteBuffer.Event) (s : State) : ∀ e, Decidable (NotRefused h s e)
  | .write msg => inferInstanceAs (Decidable (msg = [] ∨ s.sockWriter = none ∨ s.registration ≠ .absent))
  | .writer first second wouldBlock =>
      inferInstanceAs (Decidable (s.writeBuf.size = 0 ∨ wouldBlock = false ∨ ¬ s.writeBuf.Refused first second))

end SocketWriter

/-! ## The result of a write -/

namespace CircularBuffer

variable {b : CircularBuffer} {first second : SysWrite}

/-- A refused write leaves the buffer as it is; a negative result without one, and a result that is not short, come
with an empty buffer. -/
theorem writeToFd_result (hsize : b.size ≠ 0) (first second : SysWrite) :
    (b.Refused first second → (b.writeToFd first second).1 < 0 ∧ (b.writeToFd first second).2.2 = b) ∧
      (¬ b.Refused first second → (b.writeToFd first second).1 < 0 → (b.writeToFd first second).2.2.size = 0) ∧
      (b.size ≤ (b.writeToFd first second).1.toNat → 0 < (b.writeToFd first second).1 →
        (b.writeToFd first second).2.2.size = 0) := by
  unfold Refused
  by_cases hwrap : b.Wrapped
  · have hcut : b.capacity - b.r < b.size := by
      unfold Wrapped at hwrap
      omega
    rw [writeToFd_wrapped hwrap]
    split
    · next hfirst => exact ⟨fun _ => ⟨by omega, rfl⟩, fun hno hneg => absurd (.inl hneg) hno, fun _ hpos => by omega⟩
    · split
      · next hpos hshort => exact ⟨fun _ => by omega, fun _ hneg => by omega, fun hle _ => by omega⟩
      · next hpos hwhole =>
          split
          · next hsecond =>
              refine ⟨fun _ => ⟨by omega, rfl⟩, fun hno hneg => ?_, fun _ hpos => by omega⟩
              exact absurd (.inr ⟨hwrap, by omega, by omega, hneg⟩) hno
          · split
            · next hshort => exact ⟨fun _ => by omega, fun _ hneg => by omega, fun hle _ => by omega⟩
            · exact ⟨fun hr => by omega, fun _ _ => rfl, fun _ _ => rfl⟩
  · rw [writeToFd_straight (Nat.le_of_not_lt hwrap)]
    split
    · next hfirst => exact ⟨fun _ => ⟨by omega, rfl⟩, fun hno hneg => absurd (.inl hneg) hno, fun _ hpos => by omega⟩
    · split
      · next hpos hshort =>
          refine ⟨fun hr => ?_, fun _ hneg => by omega, fun hle _ => by omega⟩
          rcases hr with hneg | ⟨hw, -⟩
          · omega
          · exact absurd hw hwrap
      · next hpos hwhole =>
          refine ⟨fun hr => ?_, fun _ _ => rfl, fun _ _ => rfl⟩
          rcases hr with hneg | ⟨hw, -⟩
          · omega
          · exact absurd hw hwrap

/-- What is taken of a buffer that is not wrapped comes off its front. -/
theorem writeToFd_accepts {k : Nat} (hk0 : 0 < k) (hk : k ≤ b.size) (hsmall : k < 2 ^ 31)
    (hfits : b.r + b.size ≤ b.capacity) (second : SysWrite) :
    ∃ out buf, b.writeToFd (.accepts k) second = ((k : Int), out, buf) ∧ buf.size = b.size - k ∧
      buf.r + buf.size ≤ buf.capacity := by
  have hret : (SysWrite.accepts k).ret = k := SysWrite.ret_accepts hsmall
  have htaken : ¬ (k : Int) ≤ 0 := by omega
  rw [writeToFd_straight hfits, hret, Int.toNat_natCast, if_neg htaken]
  by_cases hshort : k < b.size
  · rw [if_pos hshort]
    exact ⟨_, _, rfl, rfl, show b.r + k + (b.size - k) ≤ b.capacity by omega⟩
  · obtain rfl : k = b.size := by omega
    rw [if_neg hshort, CUtil.toInt32_of_lt hsmall]
    exact ⟨_, _, rfl, (Nat.sub_self _).symm, Nat.zero_le _⟩

end CircularBuffer

namespace SocketWriter

open Machine Bytes

variable {h h' : History State WriteBuffer.Event} {s s' : State} {e : WriteBuffer.Event} {msg : List UInt8}
  {first second : SysWrite} {wouldBlock : Bool}

/-! ## One step -/

/-- A registration is of a writer, and an armed one is known to it. -/
structure Kept (s : State) : Prop where
  of_none : s.sockWriter = none → s.registration = .absent
  of_armed : s.registration = .armed → s.sockWriter = some { armed := true }

theorem write_kept (hk : Kept s) (hstep : write s msg = some s') : Kept s' := by
  unfold write at hstep
  split at hstep
  · cases hstep
    exact hk
  · obtain ⟨buf, -, hstep⟩ := Option.bind_eq_some_iff.1 hstep
    dsimp only at hstep
    cases hw : s.sockWriter with
    | none =>
        rw [hw] at hstep
        cases hstep
        exact ⟨fun hnone => absurd hnone (Option.some_ne_none _), fun _ => rfl⟩
    | some w =>
        rw [hw] at hstep
        cases hstep
        unfold rearm
        split
        · exact ⟨fun hnone => absurd hnone (Option.some_ne_none w), fun hr => hw.symm.trans (hk.of_armed hr)⟩
        · exact ⟨fun hnone => absurd hnone (Option.some_ne_none _), fun _ => rfl⟩

/-- A message leaves the note set; the event is armed unless it was unregistered. -/
theorem write_awake (hk : Kept s) (ha : Awake h s) (hstep : write s msg = some s') :
    Awake h' s' ↔ NotRefused h s (.write msg) := by
  unfold write at hstep
  split at hstep
  · next hnil =>
      cases hstep
      exact iff_of_true ha (.inl hnil)
  · next hmsg =>
      obtain ⟨buf, -, hstep⟩ := Option.bind_eq_some_iff.1 hstep
      dsimp only at hstep
      -- The first message of a peer makes its writer.
      cases hw : s.sockWriter with
      | none =>
          rw [hw] at hstep
          cases hstep
          refine iff_of_true (fun w hmem => ?_) (.inr (.inl hw))
          obtain rfl := Option.some.inj hmem
          refine ⟨fun _ _ => rfl, fun _ => ?_⟩
          rw [hk.of_none hw]
          rfl
      | some w =>
          rw [hw] at hstep
          cases hstep
          have hok : NotRefused h s (.write msg) ↔ s.registration ≠ .absent := by
            simp [NotRefused, hmsg, hw]
          obtain ⟨-, harmed⟩ := ha w hw
          rw [hok]
          unfold rearm
          split
          · next hset =>
              have hreg := harmed hset
              refine iff_of_true (fun w' hmem => ?_) (by rw [hreg]; exact Registration.noConfusion)
              obtain rfl : w = w' := Option.some.inj hmem
              exact ⟨fun _ _ => hset, fun _ => hreg⟩
          · constructor
            · intro ha' habsent
              have hreg : s.registration.mod = .armed := (ha' _ rfl).2 rfl
              rw [habsent] at hreg
              cases hreg
            · rintro hreg w' ⟨⟩
              refine ⟨fun _ _ => rfl, fun _ => ?_⟩
              show s.registration.mod = .armed
              cases hr : s.registration with
              | absent => exact absurd hr hreg
              | disarmed => rfl
              | armed => rfl

/-- The four ways in which an event ends. -/
inductive Ends (s : State) (first second : SysWrite) (wouldBlock : Bool) : State → Prop
  /-- Nothing is held any more, and the event stays as it was delivered. -/
  | drained {buf : CircularBuffer} : buf.size = 0 → s.writeBuf.size = 0 ∨ ¬ s.writeBuf.Refused first second →
      Ends s first second wouldBlock { writeBuf := buf, sockWriter := some { armed := false }, registration := .disarmed }
  | rearmed {buf : CircularBuffer} : ¬ s.writeBuf.Refused first second →
      Ends s first second wouldBlock { writeBuf := buf, sockWriter := some { armed := true }, registration := .armed }
  | failed {buf : CircularBuffer} : wouldBlock = false ∨ ¬ s.writeBuf.Refused first second →
      Ends s first second wouldBlock { writeBuf := buf, sockWriter := some { armed := false }, registration := .absent }
  | asleep : s.writeBuf.size ≠ 0 → s.writeBuf.Refused first second → wouldBlock = true →
      Ends s first second wouldBlock
        { writeBuf := s.writeBuf, sockWriter := some { armed := false }, registration := .disarmed }

theorem ends_deliver (s : State) (first second : SysWrite) (wouldBlock : Bool) :
    Ends s first second wouldBlock (deliver s first second wouldBlock) := by
  unfold deliver eventHandler
  dsimp only
  -- An empty buffer is not written.
  by_cases hzero : s.writeBuf.size = 0
  · rw [if_pos hzero]
    exact .drained hzero (.inl hzero)
  · rw [if_neg hzero]
    obtain ⟨hrefused, hempty, hwhole⟩ := CircularBuffer.writeToFd_result hzero first second
    generalize s.writeBuf.writeToFd first second = res at hrefused hempty hwhole ⊢
    obtain ⟨r, out, buf⟩ := res
    dsimp only at hrefused hempty hwhole ⊢
    -- An error, nothing written, and something written, in part or as a whole.
    rcases Int.lt_trichotomy r 0 with hneg | rfl | hpos
    · have hidle : ¬ (0 < r ∧ r.toNat < s.writeBuf.size) := by omega
      rw [if_neg hidle]
      by_cases hr : s.writeBuf.Refused first second
      · obtain ⟨-, rfl⟩ := hrefused hr
        cases wouldBlock with
        | true => simpa [hneg, Int.ne_of_lt hneg] using Ends.asleep hzero hr rfl
        | false => simpa [hneg] using Ends.failed (.inl rfl)
      · cases wouldBlock with
        | true => simpa [hneg, Int.ne_of_lt hneg] using Ends.drained (hempty hr hneg) (.inr hr)
        | false => simpa [hneg] using Ends.failed (.inl rfl)
    · have hr : ¬ s.writeBuf.Refused first second := fun hr => by
        have hlt := (hrefused hr).1
        omega
      simpa using Ends.failed (.inr hr)
    · have hr : ¬ s.writeBuf.Refused first second := fun hr => by
        have hlt := (hrefused hr).1
        omega
      have hgo : ¬ (r = 0 ∨ (r < 0 ∧ wouldBlock = false)) := by omega
      by_cases hshort : r.toNat < s.writeBuf.size
      · simpa [hgo, hpos, hshort, rearm, Registration.mod] using Ends.rearmed hr
      · simpa [hgo, hpos, hshort] using Ends.drained (hwhole (Nat.le_of_not_lt hshort) hpos) (.inr hr)

theorem Ends.kept (hend : Ends s first second wouldBlock s') : Kept s' := by
  have hsome : ∀ {buf w reg}, reg ≠ Registration.armed ∨ w = { armed := true } →
      Kept { writeBuf := buf, sockWriter := some w, registration := reg } := by
    intro buf w reg hor
    exact ⟨fun hnone => absurd hnone (Option.some_ne_none w), fun hr => congrArg some (hor.resolve_left fun hne => hne hr)⟩
  cases hend with
  | drained => exact hsome (.inl Registration.noConfusion)
  | rearmed => exact hsome (.inr rfl)
  | failed => exact hsome (.inl Registration.noConfusion)
  | asleep => exact hsome (.inl Registration.noConfusion)

/-- Only an event that ends in `EAGAIN` leaves the writer asleep. -/
theorem Ends.awake (hend : Ends s first second wouldBlock s') :
    Awake h' s' ↔ NotRefused h s (.writer first second wouldBlock) := by
  cases hend with
  | drained hempty hor =>
      refine iff_of_true ?_ (hor.imp_right .inr)
      rintro w ⟨⟩
      exact ⟨fun _ hne => absurd hempty hne, fun hset => by cases hset⟩
  | rearmed hno =>
      refine iff_of_true ?_ (.inr (.inr hno))
      rintro w ⟨⟩
      exact ⟨fun _ _ => rfl, fun _ => rfl⟩
  | failed hor =>
      refine iff_of_true ?_ (.inr hor)
      rintro w ⟨⟩
      exact ⟨fun hne => absurd rfl hne, fun hset => by cases hset⟩
  | asleep hne hr hblock =>
      refine iff_of_false (fun ha => ?_) ?_
      · cases (ha _ rfl).1 Registration.noConfusion hne
      · rintro (hzero | hfalse | hno)
        · exact hne hzero
        · rw [hblock] at hfalse
          cases hfalse
        · exact hno hr

theorem awake_step (hk : Kept s) (ha : Awake h s) (hstep : Step s e s') :
    (Awake ((s, e) :: h) s' ↔ NotRefused h s e) ∧ Kept s' := by
  cases e with
  | write msg => exact ⟨write_awake hk ha hstep, write_kept hk hstep⟩
  | writer first second wouldBlock =>
      have hdeliver : s' = deliver s first second wouldBlock := by
        dsimp only [Step, step] at hstep
        split at hstep
        · split at hstep
          · cases hstep
            rfl
          · cases hstep
        · cases hstep
      have hend := hdeliver ▸ ends_deliver s first second wouldBlock
      exact ⟨hend.awake, hend.kept⟩

/-! ### A new connection -/

/-- A connection whose writer is armed, with what is held for it. -/
def State.armedWith (buf : CircularBuffer) : State :=
  { writeBuf := buf, sockWriter := some { armed := true }, registration := .armed }

theorem write_first {msg : List UInt8} (hmsg : msg ≠ []) (hroom : msg.length ≤ WriteBuffer.sockBufSize) :
    ∃ buf : CircularBuffer, buf.size = msg.length ∧ buf.r + buf.size ≤ buf.capacity ∧ Step State.init (.write msg)
      (.armedWith buf) := by
  obtain ⟨buf, happend, -, hsize, hcap, hr⟩ := WriteBuffer.sound_init.rep.append_of_room hroom
  have hsize : buf.size = msg.length := hsize.trans (Nat.zero_add _)
  have hfits : buf.r + buf.size ≤ buf.capacity := by
    rw [hr, hcap, hsize]
    exact (Nat.zero_add msg.length).symm ▸ hroom
  refine ⟨buf, hsize, hfits, ?_⟩
  have hbuf : State.init.writeBuf.append msg = some buf := happend
  unfold Step step write
  dsimp only
  rw [if_neg hmsg, hbuf]
  rfl

/-- Where the descriptor takes bytes of a buffer that is not wrapped, the event is armed again while something is
left. -/
theorem step_accepts {buf : CircularBuffer} {k : Nat} (hk0 : 0 < k) (hk : k ≤ buf.size) (hsmall : k < 2 ^ 31)
    (hfits : buf.r + buf.size ≤ buf.capacity) (second : SysWrite) (wouldBlock : Bool) :
    ∃ buf' : CircularBuffer, buf'.size = buf.size - k ∧ buf'.r + buf'.size ≤ buf'.capacity ∧
      Step (.armedWith buf) (.writer (.accepts k) second wouldBlock)
        (if k < buf.size then .armedWith buf'
        else { writeBuf := buf', sockWriter := some { armed := false }, registration := .disarmed }) := by
  obtain ⟨out, buf', hres, hsize, hfits'⟩ := CircularBuffer.writeToFd_accepts hk0 hk hsmall hfits second
  have hposs : buf.Outcomes (.accepts k) second := by
    have hwrap : ¬ buf.Wrapped := Nat.not_lt_of_le hfits
    unfold CircularBuffer.Outcomes
    rw [if_neg hwrap]
    exact ⟨hk0, hk⟩
  have hstep : Step (.armedWith buf) (.writer (.accepts k) second wouldBlock)
      (deliver (.armedWith buf) (.accepts k) second wouldBlock) := if_pos ⟨rfl, fun _ => hposs⟩
  refine ⟨buf', hsize, hfits', ?_⟩
  convert hstep using 1
  have hdata : ¬ buf.size = 0 := by omega
  have hsome : k ≠ 0 := Nat.ne_of_gt hk0
  unfold deliver eventHandler State.armedWith
  dsimp only
  rw [if_neg hdata, hres]
  by_cases hshort : k < buf.size
  · simp [hshort, hsome, hk0, rearm, Registration.mod]
  · simp [hshort, hsome]

/-! ## Runs -/

theorem kept_init : Kept State.init := ⟨fun _ => rfl, fun hr => by cases hr⟩

theorem awake_init : Awake [] State.init := by
  rintro w ⟨⟩

/-- In every run the writer is never asleep with data, nor takes an event for armed that is not, exactly when no write
of an event ends in `EAGAIN` and nothing is written once the writer is unregistered. -/
theorem awake_iff (hrun : Run Step State.init h s) : Along Awake h s ↔ StepsMeet NotRefused h := by
  refine Run.along_iff_stepsMeet_of_invariant (I := Kept) awake_init kept_init ?_ hrun
  intro h s e s' _ hk ha hstep
  obtain ⟨hiff, hk'⟩ := awake_step hk ha hstep
  exact ⟨hiff, fun _ => hk'⟩

/-- A message of three bytes on a new connection: the descriptor takes two of them, and then the third. -/
theorem awake_iff_two_events : ∃ h s,
    h.map Prod.snd = [.writer (.accepts 1) .again false, .writer (.accepts 2) .again false, .write [111, 107, 10]] ∧
      Run Step State.init h s ∧ Along Awake h s ∧ s.writeBuf.size = 0 := by
  obtain ⟨buf₁, hsize₁, hfits₁, hwrite⟩ := write_first (List.cons_ne_nil 111 [107, 10]) (by decide)
  have hsize₁ : buf₁.size = 3 := hsize₁
  obtain ⟨buf₂, hsize₂, hfits₂, hstep₂⟩ :=
    step_accepts (k := 2) (by decide) (by omega) (by decide) hfits₁ .again false
  rw [if_pos (by omega)] at hstep₂
  have hsize₂ : buf₂.size = 1 := by
    rw [hsize₂, hsize₁]
  obtain ⟨buf₃, hsize₃, -, hstep₃⟩ :=
    step_accepts (k := 1) (by decide) (by omega) (by decide) hfits₂ .again false
  rw [if_neg (by omega)] at hstep₃
  have hrun := ((Run.start.next hwrite).next hstep₂).next hstep₃
  have halong := (awake_iff hrun).2 ⟨.inr (.inl rfl), .inr (.inl rfl), .inr (.inl rfl), trivial⟩
  refine ⟨_, _, rfl, hrun, halong, ?_⟩
  show buf₃.size = 0
  rw [hsize₃, hsize₂]

/-- An event that ends in `EAGAIN` leaves everything as it was, but for the note and the arming. -/
theorem deliver_again (hne : s.writeBuf.size ≠ 0) (hr : s.writeBuf.Refused first second) :
    deliver s first second true =
      { writeBuf := s.writeBuf, sockWriter := some { armed := false }, registration := .disarmed } := by
  obtain ⟨hneg, hbuf⟩ := (CircularBuffer.writeToFd_result hne first second).1 hr
  unfold deliver eventHandler
  dsimp only
  rw [if_neg hne]
  generalize s.writeBuf.writeToFd first second = res at hneg hbuf ⊢
  obtain ⟨r, out, buf⟩ := res
  obtain rfl : buf = s.writeBuf := hbuf
  have hneg : r < 0 := hneg
  have hidle : ¬ (0 < r ∧ r.toNat < s.writeBuf.size) := by omega
  dsimp only
  rw [if_neg hidle]
  simp [Int.ne_of_lt hneg]

/-- The first event of a writer ends in `EAGAIN`, and nothing will wake it again. -/
theorem asleep_after_again : ∃ h s, Run Step State.init h s ∧
    h.map Prod.snd = [.writer .again .again true, .write [111]] ∧
    s.writeBuf.size = 1 ∧ s.sockWriter = some { armed := false } ∧ s.registration = .disarmed ∧
    ¬ Along Awake h s := by
  obtain ⟨buf, hsize, -, hwrite⟩ := write_first (List.cons_ne_nil 111 []) (by decide)
  have hpossible : buf.Outcomes .again .again := by
    unfold CircularBuffer.Outcomes
    split
    · exact ⟨trivial, fun heq => by cases heq⟩
    · trivial
  have hne : buf.size ≠ 0 := by
    rw [hsize]
    exact Nat.one_ne_zero
  have hevent : Step (.armedWith buf) (.writer .again .again true)
      { writeBuf := buf, sockWriter := some { armed := false }, registration := .disarmed } := by
    have hagain : buf.Refused .again .again := .inl (by decide)
    have hdeliver : deliver (.armedWith buf) .again .again true =
        { writeBuf := buf, sockWriter := some { armed := false }, registration := .disarmed } :=
      deliver_again hne hagain
    rw [← hdeliver]
    exact if_pos ⟨rfl, fun _ => hpossible⟩
  refine ⟨_, _, (Run.start.next hwrite).next hevent, rfl, hsize, rfl, rfl, fun halong => ?_⟩
  obtain ⟨hset, -⟩ := halong.1 _ rfl
  cases hset Registration.noConfusion hne

/-! ## The bytes

Every run is one of `WriteBuffer`, which keeps the bytes that were written and taken.
-/

/-- A writer that is known to the event manager is one that its handler has not ended. -/
structure Refines (s : State) (b : WriteBuffer.State) : Prop where
  kept : Kept s
  writeBuf : b.writeBuf = s.writeBuf
  sockWriter : b.sockWriter = s.sockWriter.map fun w =>
    { armed := w.armed, registered := decide (s.registration ≠ .absent) }

theorem rearm_refines (s : State) (w : Writer) (hw : s.sockWriter = some w) :
    (rearm s w).sockWriter = some { armed := true } ∧ (rearm s w).writeBuf = s.writeBuf ∧
      ((rearm s w).registration ≠ .absent ↔ s.registration ≠ .absent) := by
  unfold rearm
  split
  · next hset =>
      obtain ⟨armed⟩ := w
      obtain rfl : armed = true := hset
      exact ⟨hw, rfl, Iff.rfl⟩
  · refine ⟨rfl, rfl, ?_⟩
    cases hr : s.registration <;> simp [Registration.mod]

theorem Refines.write {b : WriteBuffer.State} (hb : Refines s b) (hstep : write s msg = some s') :
    ∃ b', WriteBuffer.write b msg = some b' ∧ Refines s' b' := by
  have hk' := write_kept hb.kept hstep
  unfold SocketWriter.write at hstep
  unfold WriteBuffer.write
  split at hstep
  · next hnil =>
      cases hstep
      exact ⟨b, if_pos hnil, hb⟩
  · next hmsg =>
      obtain ⟨buf, happend, hstep⟩ := Option.bind_eq_some_iff.1 hstep
      have happend' : b.writeBuf.append msg = some buf := by
        rw [hb.writeBuf]
        exact happend
      rw [if_neg hmsg, happend', hb.sockWriter]
      refine ⟨_, rfl, ?_⟩
      dsimp only at hstep
      cases hw : s.sockWriter with
      | none =>
          rw [hw] at hstep
          cases hstep
          refine ⟨hk', rfl, ?_⟩
          rw [hb.kept.of_none hw]
          rfl
      | some w =>
          rw [hw] at hstep
          cases hstep
          obtain ⟨hsock, hbuf, hreg⟩ := rearm_refines { s with writeBuf := buf, sockWriter := some w } w rfl
          refine ⟨hk', hbuf.symm, ?_⟩
          rw [hsock]
          simp only [Option.map_some, WriteBuffer.rearm, hreg]

theorem Refines.deliver {b : WriteBuffer.State} (hb : Refines s b) (w : WriteBuffer.Writer) (hw : w.registered = true)
    (first second : SysWrite) (wouldBlock : Bool) :
    Refines (deliver s first second wouldBlock) (WriteBuffer.eventHandler b w first second wouldBlock) := by
  have hk' := (ends_deliver s first second wouldBlock).kept
  unfold SocketWriter.deliver eventHandler at hk' ⊢
  unfold WriteBuffer.eventHandler
  dsimp only at hk' ⊢
  rw [hb.writeBuf]
  by_cases hzero : s.writeBuf.size = 0
  · rw [if_pos hzero] at hk' ⊢
    rw [if_pos hzero]
    exact ⟨hk', rfl, by simp [hw]⟩
  · rw [if_neg hzero] at hk' ⊢
    rw [if_neg hzero]
    generalize s.writeBuf.writeToFd first second = res at hk' ⊢
    obtain ⟨r, out, buf⟩ := res
    dsimp only at hk' ⊢
    -- The event is unregistered in both, or in neither.
    by_cases hend : r = 0 ∨ (r < 0 ∧ wouldBlock = false)
    · have hlong : ¬ (0 < r ∧ r.toNat < s.writeBuf.size) := by omega
      simp only [hend, hlong] at hk' ⊢
      exact ⟨hk', rfl, by simp⟩
    · by_cases hshort : 0 < r ∧ r.toNat < s.writeBuf.size
      · simp only [hend, hshort] at hk' ⊢
        exact ⟨hk', rfl, by simp [rearm, WriteBuffer.rearm, Registration.mod, hw]⟩
      · simp only [hend, hshort] at hk' ⊢
        exact ⟨hk', rfl, by simp [hw]⟩

/-- An armed event is one of a registered writer with its note set. -/
theorem Refines.step {b : WriteBuffer.State} (hb : Refines s b) (hstep : Step s e s') :
    ∃ b', WriteBuffer.Step b e b' ∧ Refines s' b' := by
  cases e with
  | write msg => exact hb.write hstep
  | writer first second wouldBlock =>
      dsimp only [Step, step] at hstep
      split at hstep
      · split at hstep
        · next hen =>
            obtain ⟨harmed, hposs⟩ := hen
            cases hstep
            have hw : b.sockWriter = some { armed := true, registered := true } := by
              rw [hb.sockWriter, hb.kept.of_armed harmed, harmed]
              rfl
            rw [← hb.writeBuf] at hposs
            refine ⟨_, ?_, hb.deliver { armed := true, registered := true } rfl first second wouldBlock⟩
            dsimp only [WriteBuffer.Step, WriteBuffer.step]
            rw [hw]
            exact if_pos ⟨rfl, rfl, hposs⟩
        · cases hstep
      · cases hstep

theorem refines_init : Refines State.init WriteBuffer.State.init := ⟨kept_init, rfl, rfl⟩

/-- Every run is a run of the buffer, on the same events. -/
theorem run_writeBuffer (hrun : Run Step State.init h s) :
    ∃ h' b, Run WriteBuffer.Step WriteBuffer.State.init h' b ∧ Refines s b ∧ h'.map Prod.snd = h.map Prod.snd :=
  hrun.simulated refines_init Refines.step

end SocketWriter
end CppTracker
end Raiezau
