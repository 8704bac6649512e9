import Raiezau.CppTracker.CircularBuffer
import Raiezau.Machine.Object

/-!
# ByteQueue — what a circular buffer stands for

A queue of bytes with a capacity, and the calls of the buffer on it.  Every sequence of `write`, `read`,
`peek`, `resize` and `reset` gives the same on the buffer as on the queue (`outcomes_eq_byteQueue`), and no
access leaves the array.  `contains` finds what is in the queue, but in a buffer that is filled to the last
byte from a read position past its start: the two positions are equal there, as in an empty one.
-/

namespace Raiezau
namespace CppTracker

open Bytes CUtil Machine

/-! ## Calls -/

inductive Call
  | write (data : List UInt8)
  | read (size : Nat)
  | peek (size : Nat)
  /-- `resize` by the factor that makes this capacity. -/
  | resize (newCap : Nat)
  | reset
  deriving DecidableEq, Repr

/-- What a call returns, and what it copies to the caller. -/
inductive Answer
  | written (ret : Int)
  | bytes (ret : Int) (data : List UInt8)
  | done
  deriving DecidableEq, Repr

/-- Cells of an array that a call copies from or to. -/
structure Region where
  array : Nat
  start : Nat
  length : Nat
  deriving DecidableEq, Repr

def Region.Inside (x : Region) : Prop := x.start + x.length ≤ x.array

instance (x : Region) : Decidable x.Inside := inferInstanceAs (Decidable (_ ≤ _))

namespace CircularBuffer

/-- The two copies of a call that goes round the end of the array. -/
def cutRegions (b : CircularBuffer) (pos size : Nat) : List Region :=
  [⟨b.buf.length, pos, b.capacity - pos⟩, ⟨b.buf.length, 0, size - (b.capacity - pos)⟩]

def readRegions (b : CircularBuffer) (size : Nat) : List Region :=
  if b.r + size ≤ b.capacity then [⟨b.buf.length, b.r, size⟩] else b.cutRegions b.r size

def peekRegions (b : CircularBuffer) (size : Nat) : List Region :=
  if b.r + size < b.capacity then [⟨b.buf.length, b.r, size⟩] else b.cutRegions b.r size

/-- The cells of `_buf` that a call copies from or to, and those of the array that `resize` makes. -/
def regions (b : CircularBuffer) : Call → List Region
  | .write data =>
      if b.w + data.length ≤ b.capacity then [⟨b.buf.length, b.w, data.length⟩]
      else b.cutRegions b.w data.length
  | .read size => b.readRegions size
  | .peek size => b.peekRegions (if size ≤ b.size then size else b.size)
  | .resize newCap => ⟨newCap, 0, min b.size newCap⟩ :: b.readRegions (min b.size newCap)
  | .reset => []

def answer (b : CircularBuffer) : Call → Option (Answer × CircularBuffer)
  | .write data => do
      let b ← b.write data
      some (.written (toInt32 data.length), b)
  | .read size => do
      let (data, b) ← b.read size
      some (.bytes (toInt32 size) data, b)
  | .peek size => some (.bytes (b.peek size).1 (b.peek size).2, b)
  | .resize newCap =>
      if b.capacity < newCap then do
        let b ← b.resizeTo newCap
        some (.done, b)
      else none
  | .reset => some (.done, b.reset)

/-- A call, unless it aborts or leaves the array; `resize` is asked for a larger capacity. -/
def perform (b : CircularBuffer) (call : Call) : Option (Answer × CircularBuffer) :=
  if ∀ x ∈ b.regions call, x.Inside then b.answer call else none

end CircularBuffer

/-- What is seen after a call. -/
structure Observation where
  answer : Answer
  size : Nat
  remainingSpace : Nat
  deriving DecidableEq, Repr

def CircularBuffer.seen (b : CircularBuffer) (call : Call) : Option (Observation × CircularBuffer) :=
  (b.perform call).map fun (a, b) => (⟨a, b.size, b.remainingSpace⟩, b)

/-! ## The plain queue -/

/-- A queue of bytes, the oldest first. -/
structure ByteQueue where
  capacity : Nat
  bytes : List UInt8
  deriving DecidableEq, Repr

namespace ByteQueue

def Takes (q : ByteQueue) : Call → Prop
  | .write data => data.length ≤ q.capacity - q.bytes.length
  | .read size => size ≤ q.bytes.length
  | .peek _ => True
  | .resize newCap => q.capacity < newCap
  | .reset => True

instance (q : ByteQueue) (call : Call) : Decidable (q.Takes call) := by
  cases call <;> unfold Takes <;> infer_instance

def answer (q : ByteQueue) : Call → Answer × ByteQueue
  | .write data => (.written (toInt32 data.length), { q with bytes := q.bytes ++ data })
  | .read size => (.bytes (toInt32 size) (q.bytes.take size), { q with bytes := q.bytes.drop size })
  | .peek size => (.bytes (toInt32 (min size q.bytes.length : Nat)) (q.bytes.take size), q)
  | .resize newCap => (.done, { q with capacity := newCap })
  | .reset => (.done, { q with bytes := [] })

def perform (q : ByteQueue) (call : Call) : Option (Answer × ByteQueue) :=
  if q.Takes call then some (q.answer call) else none

def seen (q : ByteQueue) (call : Call) : Option (Observation × ByteQueue) :=
  (q.perform call).map fun (a, q) => (⟨a, q.bytes.length, q.capacity - q.bytes.length⟩, q)

end ByteQueue

/-! ## The buffer is the queue -/

namespace CircularBuffer

variable {b b' : CircularBuffer} {q : ByteQueue} {call : Call} {data : List UInt8} {n newCap : Nat} {c : UInt8}

/-- A buffer that stands for a queue. -/
structure Holds (b : CircularBuffer) (q : ByteQueue) : Prop where
  shape : b.Shape
  held_eq : b.held = q.bytes
  capacity_eq : b.capacity = q.capacity

theorem Holds.size_eq (h : b.Holds q) : b.size = q.bytes.length := by
  rw [← h.shape.length_held, h.held_eq]

theorem Holds.remainingSpace_eq (h : b.Holds q) : b.remainingSpace = q.capacity - q.bytes.length := by
  rw [remainingSpace, h.size_eq, h.capacity_eq]

theorem holds_new (capacity : Nat) : (new capacity).Holds ⟨capacity, []⟩ :=
  ⟨shape_new capacity, ring_zero, rfl⟩

/-! ### Accesses -/

theorem Shape.inside_cut (h : b.Shape) {pos : Nat} (hpos : pos ≤ b.capacity)
    (hsize : n - (b.capacity - pos) ≤ b.capacity) : ∀ x ∈ b.cutRegions pos n, x.Inside := by
  have hlen := h.length_eq
  intro x hx
  unfold cutRegions at hx
  rw [List.mem_cons, List.mem_singleton] at hx
  rcases hx with rfl | rfl
  · show pos + (b.capacity - pos) ≤ b.buf.length
    omega
  · show 0 + (n - (b.capacity - pos)) ≤ b.buf.length
    omega

theorem Shape.inside_read (h : b.Shape) (hn : n ≤ b.size) : ∀ x ∈ b.readRegions n, x.Inside := by
  have hlen := h.length_eq
  have hsize := h.size_le
  unfold readRegions
  split
  · next hfits =>
      intro x hx
      rw [List.mem_singleton] at hx
      subst hx
      exact hlen ▸ hfits
  · exact h.inside_cut h.r_le (by omega)

theorem Shape.inside_peek (h : b.Shape) (hn : n ≤ b.size) : ∀ x ∈ b.peekRegions n, x.Inside := by
  have hlen := h.length_eq
  have hsize := h.size_le
  unfold peekRegions
  split
  · next hfits =>
      intro x hx
      rw [List.mem_singleton] at hx
      subst hx
      exact hlen ▸ Nat.le_of_lt hfits
  · exact h.inside_cut h.r_le (by omega)

/-- The write position rests within the array, or at its end. -/
theorem Shape.w_le (h : b.Shape) : b.w ≤ b.capacity := by
  have hw := h.w_eq
  have hr := h.r_le
  have hsize := h.size_le
  by_cases hwrap : b.Wrapped
  · rw [if_pos hwrap] at hw
    omega
  · exact (h.r_le_w hwrap).2

theorem Shape.inside_write (h : b.Shape) (hdata : data.length ≤ b.remainingSpace) :
    ∀ x ∈ b.regions (.write data), x.Inside := by
  have hlen := h.length_eq
  unfold remainingSpace at hdata
  unfold regions
  dsimp only
  split
  · next hfits =>
      intro x hx
      rw [List.mem_singleton] at hx
      subst hx
      exact hlen ▸ hfits
  · exact h.inside_cut h.w_le (by omega)

/-- A call that the queue takes stays inside the arrays. -/
theorem Holds.inside (h : b.Holds q) (htakes : q.Takes call) : ∀ x ∈ b.regions call, x.Inside := by
  cases call with
  | write data => exact h.shape.inside_write (h.remainingSpace_eq.symm ▸ htakes)
  | read size => exact h.shape.inside_read (h.size_eq.symm ▸ htakes)
  | peek size =>
      refine h.shape.inside_peek ?_
      split
      · assumption
      · exact Nat.le_refl _
  | resize newCap =>
      have hgrow : q.capacity < newCap := htakes
      intro x hx
      rcases List.mem_cons.1 hx with rfl | hx
      · show 0 + min b.size newCap ≤ newCap
        omega
      · exact h.shape.inside_read (Nat.min_le_left _ _) x hx
  | reset =>
      intro x hx
      cases hx

/-! ### Answers -/

theorem Holds.answer (h : b.Holds q) (htakes : q.Takes call) :
    ∃ b', b.answer call = some ((q.answer call).1, b') ∧ b'.Holds (q.answer call).2 := by
  cases call with
  | write data =>
      have hroom : data.length ≤ b.remainingSpace := h.remainingSpace_eq.symm ▸ htakes
      obtain ⟨b', hwrite, hshape, hheld, hcap, -⟩ := h.shape.write hroom
      refine ⟨b', ?_, hshape, by rw [hheld, h.held_eq]; rfl, hcap.trans h.capacity_eq⟩
      rw [CircularBuffer.answer, hwrite]
      rfl
  | read size =>
      have hsize : size ≤ b.size := h.size_eq.symm ▸ htakes
      obtain ⟨b', hread, hshape, hheld, hcap⟩ := h.shape.read hsize
      refine ⟨b', ?_, hshape, by rw [hheld, h.held_eq]; rfl, hcap.trans h.capacity_eq⟩
      rw [CircularBuffer.answer, hread, h.held_eq]
      rfl
  | peek size =>
      refine ⟨b, ?_, h⟩
      simp only [CircularBuffer.answer, ByteQueue.answer, h.shape.peek, h.held_eq, h.size_eq]
  | resize newCap =>
      have hgrow : b.capacity < newCap := h.capacity_eq.symm ▸ htakes
      have hsize := h.shape.size_le
      obtain ⟨b', hresize, hshape, hheld, hcap, -⟩ := h.shape.resizeTo (Nat.le_trans hsize (Nat.le_of_lt hgrow))
      refine ⟨b', ?_, hshape, hheld.trans h.held_eq, hcap⟩
      rw [CircularBuffer.answer, if_pos hgrow, hresize]
      rfl
  | reset =>
      obtain ⟨hshape, hheld⟩ := h.shape.reset
      exact ⟨b.reset, rfl, hshape, hheld, h.capacity_eq⟩

/-- What the queue does not take, the source aborts on, or nobody asks for. -/
theorem Holds.answer_none (h : b.Holds q) (htakes : ¬ q.Takes call) : b.answer call = none := by
  cases call with
  | write data =>
      have hroom : ¬ data.length ≤ b.remainingSpace := h.remainingSpace_eq.symm ▸ htakes
      rw [CircularBuffer.answer, CircularBuffer.write, if_neg hroom]
      rfl
  | read size =>
      have hsize : ¬ size ≤ b.size := h.size_eq.symm ▸ htakes
      rw [CircularBuffer.answer, CircularBuffer.read, if_neg hsize]
      rfl
  | peek size => exact absurd trivial htakes
  | resize newCap =>
      have hgrow : ¬ b.capacity < newCap := h.capacity_eq.symm ▸ htakes
      rw [CircularBuffer.answer, if_neg hgrow]
  | reset => exact absurd trivial htakes

theorem Holds.perform (h : b.Holds q) (call : Call) :
    Option.Rel (fun x y => x.1 = y.1 ∧ Holds x.2 y.2) (b.perform call) (q.perform call) := by
  unfold CircularBuffer.perform ByteQueue.perform
  -- What the queue does not take, neither side answers.
  by_cases htakes : q.Takes call
  · obtain ⟨b', hanswer, hholds⟩ := h.answer htakes
    rw [if_pos htakes, if_pos (h.inside htakes), hanswer]
    exact .some ⟨rfl, hholds⟩
  · rw [if_neg htakes, h.answer_none htakes, ite_self]
    exact .none

theorem simulation_perform : Simulation Holds perform ByteQueue.perform :=
  fun h call => h.perform call

theorem simulation_seen : Simulation Holds seen ByteQueue.seen := by
  intro b q h call
  have hperform := h.perform call
  unfold seen ByteQueue.seen
  generalize b.perform call = o, q.perform call = o' at hperform
  cases hperform with
  | none => exact .none
  | some hxy =>
      obtain ⟨heq, hholds⟩ := hxy
      refine .some ⟨?_, hholds⟩
      dsimp only
      rw [heq, hholds.size_eq, hholds.remainingSpace_eq]

/-- No sequence of calls tells a new buffer from an empty queue. -/
theorem outcomes_eq_byteQueue (capacity : Nat) (calls : List Call) :
    outcomes seen (new capacity) calls = outcomes ByteQueue.seen ⟨capacity, []⟩ calls :=
  simulation_seen.outcomes_eq (holds_new capacity) calls

/-! ## `contains` -/

/-- A buffer filled to the last byte, from a read position past its start. -/
def FullPastStart (b : CircularBuffer) : Prop := b.size = b.capacity ∧ 0 < b.r

instance (b : CircularBuffer) : Decidable b.FullPastStart := inferInstanceAs (Decidable (_ ∧ _))

/-- The positions of such a buffer are equal. -/
theorem Shape.contains_full (h : b.Shape) (hfull : b.FullPastStart) : b.contains c = false := by
  obtain ⟨hsize, hr⟩ := hfull
  have hwrap : b.Wrapped := show b.capacity < b.r + b.size by omega
  have hw := h.w_eq
  rw [if_pos hwrap] at hw
  unfold contains
  rw [if_neg (by omega), if_neg (by omega)]

theorem Shape.contains_exact (h : b.Shape) :
    (b.contains c = true ↔ c ∈ b.held) ↔ (¬ b.FullPastStart ∨ c ∉ b.held) := by
  constructor
  · intro hexact
    -- Full and wrapped past the start, the buffer finds nothing.
    by_cases hfull : b.FullPastStart
    · refine .inr fun hmem => ?_
      rw [h.contains_full hfull] at hexact
      exact absurd (hexact.2 hmem) Bool.false_ne_true
    · exact .inl hfull
  · rintro hcond
    refine h.contains_iff fun hwrap => hcond.imp_left fun hfull => ?_
    have hsize := h.size_le
    have hr := h.r_le
    unfold Wrapped at hwrap
    unfold FullPastStart at hfull
    omega

/-- `contains`, `haveLine` and `haveWord` are exact but in a buffer filled past its start. -/
theorem contains_exact_iff {capacity : Nat} {calls : List Call} {b : CircularBuffer}
    (hafter : after perform (new capacity) calls = some b) :
    ∃ q, after ByteQueue.perform ⟨capacity, []⟩ calls = some q ∧ q.bytes.length = b.size ∧
      (∀ c, (b.contains c = true ↔ c ∈ q.bytes) ↔ (¬ b.FullPastStart ∨ c ∉ q.bytes)) ∧
      ((b.haveLine = true ↔ 10 ∈ q.bytes) ↔ (¬ b.FullPastStart ∨ 10 ∉ q.bytes)) ∧
      ((b.haveWord = true ↔ 32 ∈ q.bytes) ↔ (¬ b.FullPastStart ∨ 32 ∉ q.bytes)) := by
  obtain ⟨q, hq, hholds⟩ := simulation_perform.exists_after (holds_new capacity) hafter
  have hexact : ∀ c, (b.contains c = true ↔ c ∈ q.bytes) ↔ (¬ b.FullPastStart ∨ c ∉ q.bytes) := by
    intro c
    rw [← hholds.held_eq]
    exact hholds.shape.contains_exact
  exact ⟨q, hq, hholds.size_eq.symm, hexact, hexact 10, hexact 32⟩

theorem contains_exact_iff_filled :
    after perform (new 4) [.write [1, 2, 3, 10]] = some ⟨4, 4, 0, 4, [1, 2, 3, 10]⟩ ∧
      ∃ q, after ByteQueue.perform ⟨4, []⟩ [.write [1, 2, 3, 10]] = some q ∧ q.bytes.length = 4 ∧
        ∀ c, (contains ⟨4, 4, 0, 4, [1, 2, 3, 10]⟩ c = true ↔ c ∈ q.bytes) ↔
          (¬ FullPastStart ⟨4, 4, 0, 4, [1, 2, 3, 10]⟩ ∨ c ∉ q.bytes) := by
  have hafter : after perform (new 4) [.write [1, 2, 3, 10]] = some ⟨4, 4, 0, 4, [1, 2, 3, 10]⟩ := rfl
  obtain ⟨q, hq, hsize, hexact, -⟩ := contains_exact_iff hafter
  exact ⟨hafter, q, hq, hsize, hexact⟩

/-- Four cells are filled from the last one on: the newline held is not found. -/
theorem line_not_found :
    ∃ b q, after perform (new 4) [.write [1, 2, 3], .read 3, .write [97, 98, 10, 99]] = some b ∧
      after ByteQueue.perform ⟨4, []⟩ [.write [1, 2, 3], .read 3, .write [97, 98, 10, 99]] = some q ∧
      10 ∈ q.bytes ∧ b.contains 10 = false ∧ b.haveLine = false :=
  ⟨_, _, rfl, rfl, by decide, rfl, rfl⟩

end CircularBuffer

end CppTracker
end Raiezau
