import Raiezau.CppTracker.ByteQueue
import Raiezau.Machine.Run

/-!
# ReadUntil — reading a circular buffer up to a character

`readUntil` takes the bytes before a character off the queue, and the character with them.  It does so where
the bytes held lie in one piece, and in a wrapped buffer whose next such character lies at the start of the
array.  Otherwise the loop that stops before the end of the array is followed by the one that reads on at its
start (`ReadsTo`, `along_reads_iff`).
-/

namespace Raiezau
namespace CppTracker

open Bytes CUtil Machine

/-! ## Model -/

namespace ByteQueue

variable {q : ByteQueue} {c : UInt8} {line rest : List UInt8}

def readUntil (q : ByteQueue) (c : UInt8) : List UInt8 × ByteQueue :=
  let line := q.bytes.takeWhile (fun x => x ≠ c)
  (line, { q with bytes := q.bytes.drop (line.length + 1) })

theorem takeWhile_line (hline : c ∉ line) :
    (line ++ c :: rest).takeWhile (fun x => x ≠ c) = line := by
  rw [List.takeWhile_append_of_pos (fun x hx => by simpa using fun heq : x = c => hline (heq ▸ hx))]
  simp

theorem takeWhile_absent (h : c ∉ line) : line.takeWhile (fun x => x ≠ c) = line := by
  rw [List.takeWhile_eq_self_iff]
  intro x hx
  simpa using fun heq : x = c => h (heq ▸ hx)

theorem readUntil_found (hline : c ∉ line) (hbytes : q.bytes = line ++ c :: rest) :
    q.readUntil c = (line, { q with bytes := rest }) := by
  have hrest : (line ++ c :: rest).drop (line.length + 1) = rest := by
    rw [List.drop_append]
    simp
  unfold readUntil
  rw [hbytes, takeWhile_line hline]
  dsimp only
  rw [hrest]

theorem readUntil_absent (h : c ∉ q.bytes) : q.readUntil c = (q.bytes, { q with bytes := [] }) := by
  unfold readUntil
  rw [takeWhile_absent h]
  dsimp only
  rw [List.drop_of_length_le (Nat.le_succ _)]

/-- Where the character is found, less than all comes before it. -/
theorem length_takeWhile_lt (h : c ∈ line) : (line.takeWhile (fun x => x ≠ c)).length < line.length := by
  obtain ⟨before, after, rfl, hbefore⟩ := List.eq_append_cons_of_mem h
  rw [takeWhile_line hbefore, List.length_append, List.length_cons]
  omega

end ByteQueue

/-- The buffer, and what the last event gave back. -/
structure Reader where
  buffer : CircularBuffer
  result : List UInt8
  deriving DecidableEq, Repr

def Answer.data : Answer → List UInt8
  | .bytes _ data => data
  | .written _ => []
  | .done => []

namespace Reader

inductive Event
  | call (call : Call)
  | readUntil (c : UInt8)
  deriving DecidableEq, Repr

def init (capacity : Nat) : Reader := ⟨.new capacity, []⟩

def step (s : Reader) : Event → Option Reader
  | .call call => do
      let (answer, b) ← s.buffer.perform call
      some ⟨b, answer.data⟩
  | .readUntil c => some ⟨(s.buffer.readUntil c).2, (s.buffer.readUntil c).1⟩

def Step (s : Reader) (e : Event) (s' : Reader) : Prop := s.step e = some s'

instance (s : Reader) (e : Event) (s' : Reader) : Decidable (Step s e s') :=
  inferInstanceAs (Decidable (_ = _))

variable {capacity : Nat} {h : History Reader Event} {s s' : Reader} {e : Event} {c : UInt8}

/-- The queue after the events of a history, and what the last of them gives back. -/
def queueAfter (capacity : Nat) : History Reader Event → List UInt8 × ByteQueue
  | [] => ([], ⟨capacity, []⟩)
  | (_, .call call) :: h =>
      (((queueAfter capacity h).2.answer call).1.data, ((queueAfter capacity h).2.answer call).2)
  | (_, .readUntil c) :: h => (queueAfter capacity h).2.readUntil c

/-- The last event gave what the queue gives, and the buffer is left with what the queue holds. -/
structure Reads (capacity : Nat) (h : History Reader Event) (s : Reader) : Prop where
  result_eq : s.result = (queueAfter capacity h).1
  holds : s.buffer.Holds (queueAfter capacity h).2
  size_eq : s.buffer.size = (queueAfter capacity h).2.bytes.length

end Reader

/-! ## One call -/

namespace CircularBuffer

variable {b b' : CircularBuffer} {q : ByteQueue} {c : UInt8} {line rest : List UInt8}

/-- A buffer that is read up to a character as a queue is. -/
def ReadsTo (b : CircularBuffer) (c : UInt8) : Prop :=
  b.Wrapped → (b.size < b.capacity ∧ c ∉ b.held.take (b.capacity - b.r)) ∨
    (b.size = b.capacity ∧ b.r < b.capacity ∧ b.held.head? = some c)

instance (b : CircularBuffer) (c : UInt8) : Decidable (b.ReadsTo c) :=
  inferInstanceAs (Decidable (_ → _))

/-- The character is not held: all is read. -/
theorem Shape.readUntil_absent (h : b.Shape) (hwrap : ¬ b.Wrapped) (habsent : c ∉ b.held) :
    ∃ b', b.readUntil c = (b.held, b') ∧ b'.Shape ∧ b'.held = [] ∧ b'.capacity = b.capacity := by
  have hsize := h.length_held
  have hrw := h.r_le_w hwrap
  have hw := h.w_eq
  rw [if_neg hwrap] at hw
  have hcells := h.held_eq
  rw [if_neg hwrap] at hcells
  have hpart : ((b.buf.drop b.r).take (b.w - b.r)).takeWhile (fun x => x ≠ c) = b.held := by
    rw [← hcells]
    exact ByteQueue.takeWhile_absent habsent
  have hread : b.readUntil c = (b.held, { b with r := b.r + b.size, size := b.size - b.size }) := by
    unfold readUntil
    rw [if_neg (show ¬ b.w < b.r by omega)]
    dsimp only [readTo]
    rw [hpart, hsize, if_neg (show ¬ 0 < b.size - b.size by omega), List.nil_append]
  unfold Wrapped at hwrap
  have hwrap' : ¬ ({ b with r := b.r + b.size, size := b.size - b.size } : CircularBuffer).Wrapped := by
    unfold Wrapped
    dsimp only
    omega
  refine ⟨_, hread, ⟨h.length_eq, ?_, ?_, ?_⟩, ?_, rfl⟩
  · dsimp only
    omega
  · dsimp only
    omega
  · rw [if_neg hwrap']
    dsimp only
    omega
  · show ring b.buf (b.r + b.size) (b.size - b.size) = []
    rw [Nat.sub_self, ring_zero]

theorem Holds.readUntil_straight (h : b.Holds q) (hwrap : ¬ b.Wrapped) :
    ∃ b', b.readUntil c = ((q.readUntil c).1, b') ∧ b'.Holds (q.readUntil c).2 := by
  by_cases hmem : c ∈ q.bytes
  · obtain ⟨line, rest, hbytes, hline⟩ := List.eq_append_cons_of_mem hmem
    obtain ⟨b', hread, hshape, -, hrest, -, hcap⟩ :=
      h.shape.readUntil_straight hwrap hline (h.held_eq.trans hbytes)
    rw [ByteQueue.readUntil_found hline hbytes]
    exact ⟨b', hread, hshape, hrest, hcap.trans h.capacity_eq⟩
  · obtain ⟨b', hread, hshape, hempty, hcap⟩ := h.shape.readUntil_absent hwrap (h.held_eq.symm ▸ hmem)
    rw [ByteQueue.readUntil_absent hmem, ← h.held_eq]
    exact ⟨b', hread, hshape, hempty, hcap.trans h.capacity_eq⟩

theorem Holds.readUntil_wrapped (h : b.Holds q) (hwrap : b.Wrapped) (hfull : b.size < b.capacity)
    (hfirst : c ∉ b.held.take (b.capacity - b.r)) :
    ∃ b', b.readUntil c = ((q.readUntil c).1, b') ∧ b'.Holds (q.readUntil c).2 := by
  by_cases hmem : c ∈ q.bytes
  · obtain ⟨line, rest, hbytes, hline⟩ := List.eq_append_cons_of_mem hmem
    obtain ⟨b', hread, hshape, -, hrest, hcap⟩ :=
      h.shape.readUntil_wrapped hwrap hfull hfirst hline (h.held_eq.trans hbytes)
    rw [ByteQueue.readUntil_found hline hbytes]
    exact ⟨b', hread, hshape, hrest, hcap.trans h.capacity_eq⟩
  · have hcells := h.shape.held_eq
    rw [if_pos hwrap] at hcells
    obtain ⟨hshape, hwrap', hstart⟩ := h.shape.atStart_spec hwrap
    have habsent : c ∉ b.atStart.held := by
      rw [hstart]
      intro hin
      rw [← h.held_eq, hcells] at hmem
      exact hmem (List.mem_append_right _ hin)
    obtain ⟨b', hread, hshape', hempty, hcap⟩ := hshape.readUntil_absent hwrap' habsent
    rw [ByteQueue.readUntil_absent hmem, h.shape.readUntil_atStart hwrap hfull hfirst, hread, hstart,
      ← hcells, ← h.held_eq]
    exact ⟨b', rfl, hshape', hempty, hcap.trans h.capacity_eq⟩

/-- A full buffer whose positions are equal: nothing is read but the first byte, which is taken off. -/
theorem Shape.readUntil_full (h : b.Shape) (hwrap : b.Wrapped) (hfull : b.size = b.capacity) :
    b.readUntil c = ([], { b with r := b.r + 1, size := b.size - 1 }) := by
  have hw := h.w_eq
  have hr := h.r_le
  rw [if_pos hwrap] at hw
  unfold Wrapped at hwrap
  have hnone : b.w - b.r = 0 := by omega
  unfold readUntil
  rw [if_neg (show ¬ b.w < b.r by omega)]
  dsimp only [readTo]
  rw [hnone, List.take_zero, List.takeWhile_nil, List.length_nil, Nat.sub_zero,
    if_pos (show 0 < b.size by omega)]
  rfl

theorem Holds.readUntil_first (h : b.Holds q) (hwrap : b.Wrapped) (hfull : b.size = b.capacity)
    (hr : b.r < b.capacity) (hfirst : b.held.head? = some c) :
    ∃ b', b.readUntil c = ((q.readUntil c).1, b') ∧ b'.Holds (q.readUntil c).2 := by
  obtain ⟨rest, hheld⟩ := List.head?_eq_some_iff.1 hfirst
  have hbytes : q.bytes = [] ++ c :: rest := h.held_eq.symm.trans hheld
  have hlen := h.shape.length_eq
  have hw := h.shape.w_eq
  rw [if_pos hwrap] at hw
  rw [ByteQueue.readUntil_found List.not_mem_nil hbytes, h.shape.readUntil_full hwrap hfull]
  unfold Wrapped at hwrap
  refine ⟨_, rfl, ⟨hlen, ?_, ?_, ?_⟩, ?_, h.capacity_eq⟩
  · exact hr
  · show b.size - 1 ≤ b.capacity
    omega
  · have hwrap' : b.capacity < b.r + 1 + (b.size - 1) := by omega
    simp only [Wrapped, hwrap', if_true]
    omega
  · show ring b.buf (b.r + 1) (b.size - 1) = rest
    rw [← drop_ring (by omega)]
    show b.held.drop 1 = rest
    rw [hheld, List.drop_one, List.tail_cons]

/-- The queue is read. -/
theorem Holds.readUntil (h : b.Holds q) (hreads : b.ReadsTo c) :
    ∃ b', b.readUntil c = ((q.readUntil c).1, b') ∧ b'.Holds (q.readUntil c).2 := by
  by_cases hwrap : b.Wrapped
  · rcases hreads hwrap with ⟨hfull, hfirst⟩ | ⟨hfull, hr, hfirst⟩
    · exact h.readUntil_wrapped hwrap hfull hfirst
    · exact h.readUntil_first hwrap hfull hr hfirst
  · exact h.readUntil_straight hwrap

/-- The character is found before the end of the array: the write position is not where the bytes left
end. -/
theorem Shape.not_shape_readUntil (h : b.Shape) (hwrap : b.Wrapped) (hfull : b.size < b.capacity)
    (hfirst : c ∈ b.held.take (b.capacity - b.r)) : ¬ (b.readUntil c).2.Shape := by
  have hlen := h.length_eq
  have hr := h.r_le
  have hw := h.w_eq
  rw [if_pos hwrap] at hw
  have hcells := h.held_eq
  rw [if_pos hwrap] at hcells
  have hend : (b.buf.drop b.r).length = b.capacity - b.r := by rw [List.length_drop, hlen]
  have hwrap' : b.capacity < b.r + b.size := hwrap
  rw [hcells, List.take_append_of_le_length (by omega), List.take_of_length_le (by omega)] at hfirst
  have hone : ((b.buf.drop b.r).takeWhile (fun x => x ≠ c)).length < b.capacity - b.r :=
    hend ▸ ByteQueue.length_takeWhile_lt hfirst
  have htwo : ((b.buf.take b.w).takeWhile (fun x => x ≠ c)).length ≤ b.w := by
    have hle := List.takeWhile_prefix (fun x => x ≠ c) (l := b.buf.take b.w) |>.length_le
    rw [List.length_take] at hle
    omega
  have hread : (b.readUntil c).2.capacity = b.capacity ∧ (b.readUntil c).2.w = b.w ∧
      (b.readUntil c).2.r = 0 + ((b.buf.take b.w).takeWhile (fun x => x ≠ c)).length + 1 ∧
      (b.readUntil c).2.size = b.size - ((b.buf.drop b.r).takeWhile (fun x => x ≠ c)).length -
        ((b.buf.take b.w).takeWhile (fun x => x ≠ c)).length - 1 := by
    unfold readUntil
    rw [if_pos (show b.w < b.r by omega)]
    dsimp only [readTo]
    rw [List.take_of_length_le (Nat.le_of_eq hend), Nat.sub_zero, List.drop_zero, if_pos (by omega)]
    exact ⟨rfl, rfl, rfl, rfl⟩
  generalize ((b.buf.drop b.r).takeWhile (fun x => x ≠ c)).length = k at hone hread
  generalize ((b.buf.take b.w).takeWhile (fun x => x ≠ c)).length = m at htwo hread
  generalize (b.readUntil c).2 = b' at hread
  obtain ⟨hcap', hw', hr', hsize'⟩ := hread
  intro hshape
  have hend' := hshape.w_eq
  -- Whether or not the buffer left is wrapped, its write position is not where its size says.
  by_cases hwrap₂ : b'.Wrapped
  · rw [if_pos hwrap₂] at hend'
    unfold Wrapped at hwrap₂
    omega
  · rw [if_neg hwrap₂] at hend'
    omega

/-- Otherwise the bytes read are not those before the character, or those left are not held. -/
theorem Holds.readsTo (h : b.Holds q) (hresult : (b.readUntil c).1 = (q.readUntil c).1)
    (hshape : (b.readUntil c).2.Shape) : b.ReadsTo c := by
  intro hwrap
  -- A buffer that is not full fails in its shape, a full one in what is returned.
  rcases Nat.lt_or_ge b.size b.capacity with hlt | hge
  · refine .inl ⟨hlt, fun hfirst => ?_⟩
    exact h.shape.not_shape_readUntil hwrap hlt hfirst hshape
  · have hfull : b.size = b.capacity := Nat.le_antisymm h.shape.size_le hge
    rw [h.shape.readUntil_full hwrap hfull] at hresult hshape
    have hr : b.r + 1 ≤ b.capacity := hshape.r_le
    refine .inr ⟨hfull, hr, ?_⟩
    have hpos : 0 < b.held.length := by
      rw [h.shape.length_held]
      omega
    obtain ⟨x, rest, hheld⟩ := List.exists_cons_of_length_pos hpos
    have hnone : ([] : List UInt8) = b.held.takeWhile (fun x => x ≠ c) := by
      rw [h.held_eq]
      exact hresult
    rw [hheld, List.takeWhile_cons] at hnone
    have hx : x = c := by
      by_contra hne
      rw [if_pos (by simpa using hne)] at hnone
      cases hnone
    rw [hheld, hx, List.head?_cons]

end CircularBuffer

/-! ## Runs -/

namespace Reader

variable {capacity : Nat} {h : History Reader Event} {s s' : Reader} {e : Event}

/-- Every reading up to a character meets a buffer that is so read. -/
def EventOk (_ : History Reader Event) (s : Reader) : Event → Prop
  | .call _ => True
  | .readUntil c => s.buffer.ReadsTo c

instance (h : History Reader Event) (s : Reader) (e : Event) : Decidable (EventOk h s e) := by
  cases e <;> unfold EventOk <;> infer_instance

theorem reads_init (capacity : Nat) : Reads capacity [] (init capacity) :=
  ⟨rfl, CircularBuffer.holds_new capacity, rfl⟩

theorem Reads.step (hreads : Reads capacity h s) (hs : Step s e s') :
    Reads capacity ((s, e) :: h) s' ↔ EventOk h s e := by
  cases e with
  | call call =>
      refine ⟨fun _ => trivial, fun _ => ?_⟩
      have hperform := hreads.holds.perform call
      unfold Step Reader.step at hs
      rw [Option.bind_eq_bind, Option.bind_eq_some_iff] at hs
      obtain ⟨⟨answer, b⟩, hb, hs⟩ := hs
      obtain rfl := Option.some.inj hs
      rw [hb] at hperform
      unfold ByteQueue.perform at hperform
      split at hperform
      · cases hperform with
        | some hxy =>
            obtain ⟨hanswer, hholds⟩ := hxy
            exact ⟨congrArg Answer.data hanswer, hholds, hholds.size_eq⟩
      · cases hperform
  | readUntil c =>
      obtain rfl := Option.some.inj hs
      constructor
      · intro hafter
        exact hreads.holds.readsTo hafter.result_eq hafter.holds.shape
      · intro hok
        obtain ⟨b', hread, hholds⟩ := hreads.holds.readUntil hok
        rw [hread]
        exact ⟨rfl, hholds, hholds.size_eq⟩

/-- A run reads as a queue does if and only if every reading up to a character meets a buffer that is so
read. -/
theorem along_reads_iff (hrun : Run Step (init capacity) h s) :
    Along (Reads capacity) h s ↔ StepsMeet EventOk h :=
  Run.along_iff_stepsMeet (reads_init capacity) (fun _ hreads hs => hreads.step hs) hrun

/-- Events that replay are a run, and what a check finds at its end holds. -/
theorem exists_run_of_replay (es : List Event) {P : History Reader Event → Reader → Prop}
    [∀ h s, Decidable (P h s)]
    (hre : (replay Reader.step [] (init 4) es).any (fun x => P x.1 x.2) = true) :
    ∃ h s, Run Step (init 4) h s ∧ P h s :=
  Run.exists_of_replay id es hre

theorem along_reads_iff_round_the_end :
    ∃ h s, Run Step (init 4) h s ∧ (Along (Reads 4) h s ↔ StepsMeet EventOk h) ∧ StepsMeet EventOk h := by
  obtain ⟨h, s, hrun, hok⟩ := exists_run_of_replay
    [.call (.write [97, 98, 99]), .call (.read 2), .call (.write [10, 100]), .readUntil 100]
    (P := fun h _ => StepsMeet EventOk h) (by decide)
  exact ⟨h, s, hrun, along_reads_iff hrun, hok⟩

/-- A newline is the last byte of the array, and "b" the first: the line read is "b", not the empty one. -/
theorem line_read_past_newline :
    ∃ h s, Run Step (init 4) h s ∧ s.buffer.held = [10, 98] ∧ (queueAfter 4 h).2.bytes = [10, 98] ∧
      (s.buffer.readUntil 10).1 = [98] ∧ (s.buffer.readUntil 10).2.size = 0 :=
  exists_run_of_replay [.call (.write [97, 98, 99]), .call (.read 3), .call (.write [10, 98])] (by decide)

end Reader

end CppTracker
end Raiezau
