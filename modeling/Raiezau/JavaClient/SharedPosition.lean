import Raiezau.JavaClient.Completion
import Raiezau.JavaClient.Geometry
import Raiezau.Machine.Run

/-!
# SharedPosition — threads that serve pieces of one file

All server threads read through the one `RandomAccessFile` of a `File`.  `readPiece` makes two calls on it, `seek` and
`read`, and the position that the first one sets belongs to all of them.
-/

namespace Raiezau
namespace JavaClient

open CUtil Machine Bytes

/-! ## Model -/

/-- A thread in `sendData`: the indices that are still to be sent, and whether the seek for the first of them is done. -/
structure ServerThread where
  index : List Int
  sought : Bool
  deriving DecidableEq, Repr

/-- The position of the file, the threads, and what their calls of `readPiece` gave, latest first. -/
structure Server where
  position : Nat
  threads : List ServerThread
  sent : List (Nat × Int × Except JavaError (List UInt8))
  deriving DecidableEq

/-- A thread makes its next call on the file. -/
inductive FileCall
  | seek (thread : Nat)
  | read (thread : Nat)
  deriving DecidableEq, Repr

namespace File

/-- `readPiece` up to its first call on the file, and the position it seeks. -/
def seekFor (f : File) (pieceIndex : Int) : Except JavaError Nat := do
  if f.pieceSize < 0 then throw .negativeArraySize
  if !(← f.bufferMap.isCompleted pieceIndex) then throw .noPart
  if f.seekPos pieceIndex < 0 then throw .io
  pure (f.seekPos pieceIndex).toNat

/-- The bytes of a piece. -/
def pieceContent (f : File) (i : Int) : List UInt8 := readAt 0 f.content (f.pieceSize * i).toNat f.pieceSize.toNat

end File

namespace Server

/-- The piece is done: the thread goes on with the next one.  A missing piece is answered with an error, any other
exception ends the thread. -/
def answer (s : Server) (t : Nat) (i : Int) (is : List Int) (r : Except JavaError (List UInt8)) : Server :=
  let rest := match r with
    | .ok _ => is
    | .error .noPart => is
    | .error _ => []
  { s with
    threads := s.threads.set t ⟨rest, false⟩
    sent := (t, i, r) :: s.sent }

def perform (f : File) (s : Server) : FileCall → Option Server
  | .seek t =>
      match s.threads[t]? with
      | some ⟨i :: is, false⟩ =>
          match f.seekFor i with
          | .error e => some (s.answer t i is (.error e))
          | .ok pos => some { s with position := pos, threads := s.threads.set t ⟨i :: is, true⟩ }
      | _ => none
  | .read t =>
      match s.threads[t]? with
      | some ⟨i :: is, true⟩ =>
          -- The position moves by as many bytes as there were.
          let n := min f.pieceSize.toNat (f.content.length - s.position)
          let s := s.answer t i is (.ok (readAt 0 f.content s.position f.pieceSize.toNat))
          some { s with position := s.position + n }
      | _ => none

def Step (f : File) (s : Server) (e : FileCall) (s' : Server) : Prop := s.perform f e = some s'

/-- Each call of `readPiece` gave the piece it was for. -/
def PiecesRight (f : File) (s : Server) : Prop := ∀ x ∈ s.sent, x.2.2 = .ok (f.pieceContent x.2.1)

/-- The index a thread is at. -/
def current (s : Server) (t : Nat) : Option Int := (s.threads[t]?).bind fun th => th.index.head?

/-- The piece that a thread seeks is there; a read finds the position at the start of its own piece. -/
def InPlace (f : File) (s : Server) : FileCall → Prop
  | .seek t => ∀ i ∈ s.current t, (f.seekFor i).isOk = true
  | .read t => ∀ i ∈ s.current t, (s.position : Int) = f.pieceSize * i

/-- The piece that a thread seeks is there and starts where an `int` says, and no thread makes a call between the seek
and the read. -/
def Undisturbed (f : File) (h : History Server FileCall) (s : Server) : FileCall → Prop
  | .seek t => ∀ i ∈ s.current t, (f.seekFor i).isOk = true ∧ f.seekPos i = f.pieceSize * i
  | .read t => h.head?.map Prod.snd = some (.seek t)

instance (f : File) (s : Server) (e : FileCall) : Decidable (s.InPlace f e) := by
  cases e <;> exact inferInstanceAs (Decidable (∀ i ∈ s.current _, _))

instance (f : File) (h : History Server FileCall) (s : Server) (e : FileCall) : Decidable (Undisturbed f h s e) := by
  cases e
  · exact inferInstanceAs (Decidable (∀ i ∈ s.current _, _))
  · exact inferInstanceAs (Decidable (_ = _))

end Server

variable {f : File} {s s' init : Server} {h : History Server FileCall} {e : FileCall} {t : Nat} {i : Int}

/-! ## One thread alone -/

/-- A call of `readPiece` that nothing comes between. -/
theorem File.readPiece_eq_seekFor (f : File) (i : Int) :
    f.readPiece i = (f.seekFor i).map fun pos => readAt 0 f.content pos f.pieceSize.toNat := by
  rw [readPiece_eq, seekFor, checked_eq, checked_eq]
  split
  · rfl
  · split
    · rfl
    · rfl
    · split <;> rfl

theorem File.seekFor_eq_ok {pos : Nat} (h : f.seekFor i = .ok pos) : (pos : Int) = f.seekPos i := by
  rw [seekFor, checked_eq] at h
  split at h
  · cases h
  · split at h
    · cases h
    · cases h
    · split at h
      · cases h
      · next hpos =>
          obtain rfl := Except.ok.inj h
          exact Int.toNat_of_nonneg (Int.not_lt.1 hpos)

/-! ## Steps -/

namespace Server

theorem step_seek_cases (hstep : Step f s (.seek t) s') : ∃ i is, s.threads[t]? = some ⟨i :: is, false⟩ ∧
    ((∃ e, f.seekFor i = .error e ∧ s' = s.answer t i is (.error e)) ∨
      ∃ pos, f.seekFor i = .ok pos ∧ s' = { s with position := pos, threads := s.threads.set t ⟨i :: is, true⟩ }) := by
  unfold Step perform at hstep
  dsimp only at hstep
  split at hstep
  · next i is hth =>
      refine ⟨i, is, hth, ?_⟩
      split at hstep
      · next e hseek => exact .inl ⟨e, hseek, (Option.some.inj hstep).symm⟩
      · next pos hseek => exact .inr ⟨pos, hseek, (Option.some.inj hstep).symm⟩
  · cases hstep

theorem step_read_cases (hstep : Step f s (.read t) s') : ∃ i is, s.threads[t]? = some ⟨i :: is, true⟩ ∧
    s'.sent = (t, i, .ok (readAt 0 f.content s.position f.pieceSize.toNat)) :: s.sent := by
  unfold Step perform at hstep
  dsimp only at hstep
  split at hstep
  · next i is hth =>
      obtain rfl := Option.some.inj hstep
      exact ⟨i, is, hth, rfl⟩
  · cases hstep

theorem current_eq {is : List Int} {sought : Bool} (hth : s.threads[t]? = some ⟨i :: is, sought⟩) :
    s.current t = some i := by
  rw [current, hth]
  rfl

/-- A call in its place gives the piece it is for. -/
theorem PiecesRight.step (hright : s.PiecesRight f) (hplace : s.InPlace f e) (hstep : Step f s e s') :
    s'.PiecesRight f := by
  cases e with
  | seek t =>
      obtain ⟨i, is, hth, ⟨e, hseek, -⟩ | ⟨pos, -, rfl⟩⟩ := step_seek_cases hstep
      -- A call that throws at its seek has no piece: the condition rules it out.
      · have hok := hplace i (current_eq hth)
        rw [hseek] at hok
        cases hok
      · exact hright
  | read t =>
      obtain ⟨i, is, hth, hsent⟩ := step_read_cases hstep
      have hpos : (s.position : Int) = f.pieceSize * i := hplace i (current_eq hth)
      intro x hx
      rw [hsent] at hx
      rcases List.mem_cons.1 hx with rfl | hold
      · dsimp only
        rw [File.pieceContent, ← hpos, Int.toNat_natCast]
      · exact hright x hold

/-! ## Runs -/

/-- Any threads, any interleaving: as long as every read finds the position in place, every call gives its piece. -/
theorem piecesRight_of_inPlace (hinit : init.sent = []) (hrun : Run (Step f) init h s)
    (hplace : StepsMeet (fun _ s e => s.InPlace f e) h) : Along (fun _ s => s.PiecesRight f) h s := by
  refine Run.along_of_stepsMeet (I := fun _ s => s.PiecesRight f) ?_ PiecesRight.step id hrun hplace
  intro x hx
  rw [hinit] at hx
  cases hx

/-- What a seek leaves for the read of its thread. -/
theorem inPlace_of_seek {s₀ : Server} (hok : Undisturbed f h s₀ (.seek t)) (hstep : Step f s₀ (.seek t) s) :
    s.InPlace f (.read t) := by
  obtain ⟨i, is, hth, ⟨e, hseek, -⟩ | ⟨pos, hseek, rfl⟩⟩ := step_seek_cases hstep
  · have hfound := (hok i (current_eq hth)).1
    rw [hseek] at hfound
    cases hfound
  · have hlt : t < s₀.threads.length := (List.getElem?_eq_some_iff.1 hth).1
    have hset : (s₀.threads.set t ⟨i :: is, true⟩)[t]? = some ⟨i :: is, true⟩ := List.getElem?_set_self hlt
    intro j hj
    obtain rfl : i = j := Option.some.inj ((current_eq hset).symm.trans hj)
    exact (File.seekFor_eq_ok hseek).trans (hok i (current_eq hth)).2

/-- Where no call comes between the two calls of a thread, each read finds its position. -/
theorem inPlace_of_undisturbed (hrun : Run (Step f) init h s) (hok : StepsMeet (Undisturbed f) h) :
    StepsMeet (fun _ s e => s.InPlace f e) h := by
  -- The run is followed back from its last step.
  induction hrun with
  | start => trivial
  | @next h s s' e hr hs ih =>
      refine ⟨?_, ih hok.2⟩
      cases e with
      | seek t => exact fun i hi => (hok.1 i hi).1
      | read t =>
          have hlast : h.head?.map Prod.snd = some (.seek t) := hok.1
          -- The seek of the same thread was the last step, so it still holds.
          cases hr with
          | start => cases hlast
          | @next h₀ s₀ _ e₀ _ hs₀ =>
              obtain rfl : e₀ = .seek t := Option.some.inj hlast
              exact inPlace_of_seek hok.2.1 hs₀

/-- Two threads, each with one piece of the file of five bytes to send. -/
def twoThreads : Server := ⟨0, [⟨[0], false⟩, ⟨[1], false⟩], []⟩

theorem exists_run_of_replay (es : List FileCall) {P : History Server FileCall → Server → Prop} [∀ h s, Decidable (P h s)]
    (hre : (replay (perform fiveBytes) [] twoThreads es).any (fun r => P r.1 r.2) = true) :
    ∃ h s, Run (Step fiveBytes) twoThreads h s ∧ P h s :=
  Run.exists_of_replay id es hre

theorem piecesRight_one_by_one : ∃ h s, Run (Step fiveBytes) twoThreads h s ∧ s.sent.length = 2 ∧
    Along (fun _ s => s.PiecesRight fiveBytes) h s := by
  obtain ⟨h, s, hrun, hlen, hok⟩ := exists_run_of_replay [.seek 0, .read 0, .seek 1, .read 1]
    (P := fun h s => s.sent.length = 2 ∧ StepsMeet (Undisturbed fiveBytes) h) (by decide)
  exact ⟨h, s, hrun, hlen, piecesRight_of_inPlace rfl hrun (inPlace_of_undisturbed hrun hok)⟩

/-- The second thread seeks before the first one reads: the first one sends the second one's piece. -/
theorem other_piece_sent : ∃ h s, Run (Step fiveBytes) twoThreads h s ∧
    s.sent = [(0, 0, .ok [3, 4])] ∧ fiveBytes.pieceContent 0 = [1, 2] ∧ ¬ s.PiecesRight fiveBytes := by
  obtain ⟨h, s, hrun, hsent⟩ := exists_run_of_replay [.seek 0, .seek 1, .read 0]
    (P := fun _ s => s.sent = [(0, 0, .ok [3, 4])]) (by decide)
  have hpiece : fiveBytes.pieceContent 0 = [1, 2] := by decide
  refine ⟨h, s, hrun, hsent, hpiece, fun hright => ?_⟩
  have hdata := hright (0, 0, .ok [3, 4]) (hsent ▸ List.mem_singleton.2 rfl)
  rw [hpiece] at hdata
  revert hdata
  decide

end Server

end JavaClient
end Raiezau
