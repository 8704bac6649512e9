import Mathlib.Algebra.Order.Floor.Div
import Mathlib.GroupTheory.GroupAction.Ring
import Raiezau.JavaClient.Reassembly
import Raiezau.Machine.Fold
import Raiezau.Memory.Heap

/-!
# IndexSet — a `BitSet` as a set of indices

A `BitSet` object is a reference to its array of bytes.  `toByteArray` makes an array of its own,
`fromByteArray` shares the one it is given.  The abstract set is a predicate on indices; what an index reads
after any sequence of operations is what the last operation that concerns it says.
-/

namespace Raiezau
namespace JavaClient

open CUtil Machine Memory

/-! ## Model -/

/-- The operations that change the set. -/
inductive BitOp
  | set (i : Nat)
  | clear (i : Nat)
  | setAll
  | clearAll
  deriving DecidableEq, Repr

namespace BitOp

/-- The index is one of the set. -/
def Within (n : Nat) : BitOp → Prop
  | set i | clear i => i < n
  | setAll | clearAll => True

/-- What the operation makes of an index, if it concerns it. -/
def tells (j : Nat) : BitOp → Option Bool
  | set i => if i = j then some true else none
  | clear i => if i = j then some false else none
  | setAll => some true
  | clearAll => some false

def perform (b : BitSet) : BitOp → Except JavaError BitSet
  | set i => b.set i
  | clear i => b.clear i
  | setAll => .ok b.setAll
  | clearAll => .ok b.clearAll

/-- The operation on the set of indices. -/
def apply (s : Nat → Bool) (op : BitOp) : Nat → Bool := fun j => (op.tells j).getD (s j)

instance (n : Nat) : ∀ op : BitOp, Decidable (op.Within n)
  | set _ | clear _ => inferInstanceAs (Decidable (_ < n))
  | setAll | clearAll => .isTrue trivial

end BitOp

/-- The arrays of bytes that were made so far. -/
abbrev ByteArrays := Heap (List UInt8)

/-- A `BitSet` object: the reference it has in its field. -/
structure BitSetRef where
  bits : Addr
  deriving DecidableEq, Repr

namespace BitSetRef

variable (h : ByteArrays) (r : BitSetRef)

def get : BitSet := ⟨(h.read r.bits).getD []⟩

/-- `new BitSet(size)`. -/
def new (size : Int) : Except JavaError (ByteArrays × BitSetRef) := do
  let b ← BitSet.new size
  .ok (h.alloc b.bits, ⟨h.fresh⟩)

def perform (op : BitOp) : Except JavaError ByteArrays := do
  let b ← op.perform (r.get h)
  .ok (h.modify r.bits fun _ => b.bits)

def run : ByteArrays → List BitOp → Except JavaError ByteArrays
  | h, [] => .ok h
  | h, op :: ops => do
      let h ← r.perform h op
      run h ops

def test (i : Int) : Except JavaError Bool := (r.get h).test i

def size : Nat := (r.get h).size

/-- The loop of `toByteArray`. -/
def copyBytes (bits : List UInt8) : List UInt8 :=
  (List.range bits.length).foldl (fun copy i => copy.set i (bits.getD i 0)) (List.replicate bits.length 0)

def toByteArray : ByteArrays × Addr := (h.alloc (copyBytes (r.get h).bits), h.fresh)

def fromByteArray (array : Addr) : BitSetRef := ⟨array⟩

end BitSetRef

/-- A `BitSet` of `n` indices is a set of indices: each reads as the last operation on it says, the size is the
number of bytes that takes, and an array taken from it is a copy that reads the same and stays as it is. -/
def IsIndexSet (n : Nat) : Prop :=
  ∀ h : ByteArrays, ∃ h₁ r, BitSetRef.new h n = .ok (h₁, r) ∧
    ∀ ops : List BitOp, (∀ op ∈ ops, op.Within n) → ∃ h₂, r.run h₁ ops = .ok h₂ ∧ r.size h₂ = n ⌈/⌉ 8 ∧
      (∀ j, j < n → r.test h₂ j = .ok (ops.findSomeRev? (BitOp.tells j) = some true)) ∧
      (∀ i : Int, (BitSetRef.fromByteArray (r.toByteArray h₂).2).test (r.toByteArray h₂).1 i = r.test h₂ i) ∧
      ∀ later : List BitOp, (∀ op ∈ later, op.Within n) → ∃ h₃, r.run (r.toByteArray h₂).1 later = .ok h₃ ∧
        h₃.read (r.toByteArray h₂).2 = (r.toByteArray h₂).1.read (r.toByteArray h₂).2

/-! ## The set behind the bytes -/

/-- The bytes hold the set. -/
structure BitSet.Holds (n : Nat) (s : Nat → Bool) (b : BitSet) : Prop where
  size_eq : b.size = (n + 7) / 8
  test_eq : ∀ {j}, j < n → b.test j = .ok (s j)

variable {n : Nat} {s : Nat → Bool} {b b' : BitSet} {op : BitOp} {h h' : ByteArrays} {r : BitSetRef} {a : Addr}

theorem BitSet.Holds.lt_size (hb : b.Holds n s) {i : Nat} (hi : i < n) : i / 8 < b.size := by
  rw [hb.size_eq]
  omega

theorem BitSet.holds_new (hfits : n + 7 < 2 ^ 31) :
    ∃ b, BitSet.new n = .ok b ∧ b.Holds n fun _ => false := by
  refine ⟨_, BitSet.new_of_fits hfits, List.length_replicate, fun {j} hj => ?_⟩
  refine BitSet.test_zero (List.getElem?_replicate_of_lt ?_)
  omega

/-- An operation on one index leaves the others. -/
theorem BitSet.Holds.perform (hb : b.Holds n s) (hop : op.Within n) :
    ∃ b', op.perform b = .ok b' ∧ b'.Holds n (op.apply s) := by
  cases op with
  | set i =>
      obtain ⟨b', hset⟩ := BitSet.exists_set (hb.lt_size hop)
      refine ⟨b', hset, (BitSet.size_set hset).trans hb.size_eq, fun {j} hj => ?_⟩
      rw [BitSet.test_set hset, hb.test_eq hj, BitOp.apply, BitOp.tells]
      by_cases hij : i = j <;> simp [hij, Except.map]
  | clear i =>
      obtain ⟨b', hclear⟩ := BitSet.exists_clear (hb.lt_size hop)
      refine ⟨b', hclear, (BitSet.size_clear hclear).trans hb.size_eq, fun {j} hj => ?_⟩
      rw [BitSet.test_clear hclear, hb.test_eq hj, BitOp.apply, BitOp.tells]
      by_cases hij : i = j <;> simp [hij, Except.map]
  | setAll =>
      exact ⟨b.setAll, rfl, (List.length_map _).trans hb.size_eq, fun hj => BitSet.test_setAll (hb.lt_size hj)⟩
  | clearAll =>
      exact ⟨b.clearAll, rfl, (List.length_map _).trans hb.size_eq, fun hj => BitSet.test_clearAll (hb.lt_size hj)⟩

/-! ## Objects -/

namespace BitSetRef

theorem get_of_read {bits : List UInt8} (hr : h.read r.bits = some bits) : r.get h = ⟨bits⟩ := by
  rw [get, hr, Option.getD_some]

/-- The array of the object is there, and its bytes hold the set. -/
structure Stands (n : Nat) (s : Nat → Bool) (h : ByteArrays) (r : BitSetRef) : Prop where
  live : ∃ bits, h.read r.bits = some bits
  holds : (r.get h).Holds n s

theorem Stands.perform (hs : r.Stands n s h) (hop : op.Within n) :
    ∃ h', r.perform h op = .ok h' ∧ r.Stands n (op.apply s) h' ∧ ∀ a, a ≠ r.bits → h'.read a = h.read a := by
  obtain ⟨bits, hlive⟩ := hs.live
  obtain ⟨b', hop, hholds⟩ := hs.holds.perform hop
  refine ⟨h.modify r.bits fun _ => b'.bits, by rw [BitSetRef.perform, hop]; rfl, ?_, fun a ha => ?_⟩
  · have hread : (h.modify r.bits fun _ => b'.bits).read r.bits = some b'.bits := by
      rw [Heap.read_modify, if_pos rfl, hlive, Option.map_some]
    exact ⟨⟨_, hread⟩, (get_of_read hread).symm ▸ hholds⟩
  · rw [Heap.read_modify, if_neg ha]

theorem Stands.run (hs : r.Stands n s h) {ops : List BitOp} (hops : ∀ op ∈ ops, op.Within n) :
    ∃ h', r.run h ops = .ok h' ∧ r.Stands n (ops.foldl BitOp.apply s) h' ∧
      ∀ a, a ≠ r.bits → h'.read a = h.read a := by
  -- One operation after the other, each within the size.
  induction ops generalizing h s with
  | nil => exact ⟨h, rfl, hs, fun _ _ => rfl⟩
  | cons op ops ih =>
      obtain ⟨h₁, hop, hs₁, hothers₁⟩ := hs.perform (hops op List.mem_cons_self)
      obtain ⟨h₂, hrest, hs₂, hothers₂⟩ := ih hs₁ fun op hop => hops op (List.mem_cons_of_mem _ hop)
      refine ⟨h₂, ?_, hs₂, fun a ha => (hothers₂ a ha).trans (hothers₁ a ha)⟩
      rw [BitSetRef.run, hop, ok_bind]
      exact hrest

theorem stands_new (hfits : n + 7 < 2 ^ 31) (h : ByteArrays) :
    ∃ h₁ r, new h n = .ok (h₁, r) ∧ r.Stands n (fun _ => false) h₁ := by
  obtain ⟨b, hnew, hholds⟩ := BitSet.holds_new hfits
  have hread : (h.alloc b.bits).read h.fresh = some b.bits := Heap.read_alloc_fresh h b.bits
  refine ⟨h.alloc b.bits, ⟨h.fresh⟩, by rw [new, hnew, ok_bind], ⟨_, hread⟩, ?_⟩
  exact (get_of_read (r := ⟨h.fresh⟩) hread).symm ▸ hholds

/-- The copy after `k` rounds of the loop: the first `k` bytes, and zeros. -/
theorem copyBytes_eq (bits : List UInt8) : copyBytes bits = bits := by
  have hloop : ∀ k ≤ bits.length, (List.range k).foldl (fun copy i => copy.set i (bits.getD i 0))
      (List.replicate bits.length 0) = bits.take k ++ List.replicate (bits.length - k) 0 := by
    intro k hk
    induction k with
    | zero => simp
    | succ k ih =>
        have hlt : k < bits.length := hk
        have hrest : List.replicate (bits.length - k) (0 : UInt8) =
            0 :: List.replicate (bits.length - (k + 1)) 0 := by
          rw [← List.replicate_succ]
          congr 1
          omega
        rw [List.range_succ, List.foldl_append, ih (Nat.le_of_succ_le hk), List.foldl_cons, List.foldl_nil, hrest,
          List.set_append_right _ _ (List.length_take_le k bits), List.length_take_of_le (Nat.le_of_lt hlt),
          Nat.sub_self, List.set_cons_zero, List.take_succ_eq_append_getElem hlt, List.append_assoc,
          List.singleton_append, List.getD_eq_getElem?_getD, List.getElem?_eq_getElem hlt, Option.getD_some]
  rw [copyBytes, hloop _ (Nat.le_refl _), Nat.sub_self, List.take_length, List.replicate_zero, List.append_nil]

/-- The copy is another array with the same bytes. -/
theorem Stands.toByteArray (hs : r.Stands n s h) :
    r.Stands n s (r.toByteArray h).1 ∧ (r.toByteArray h).2 ≠ r.bits ∧
      (fromByteArray (r.toByteArray h).2).get (r.toByteArray h).1 = r.get h := by
  obtain ⟨bits, hlive⟩ := hs.live
  have hread : (r.toByteArray h).1.read r.bits = some bits := Heap.read_alloc_of_read hlive
  refine ⟨⟨⟨bits, hread⟩, ?_⟩, ?_, ?_⟩
  · rw [get_of_read hread, ← get_of_read hlive]
    exact hs.holds
  · exact (Nat.ne_of_lt (Heap.lt_fresh_of_read hlive)).symm
  · have hcopy : (r.toByteArray h).1.read (r.toByteArray h).2 = some (copyBytes (r.get h).bits) :=
      Heap.read_alloc_fresh _ _
    rw [get_of_read (r := fromByteArray (r.toByteArray h).2) hcopy, copyBytes_eq]

end BitSetRef

/-- What an index reads is what the last operation that concerns it says. -/
theorem foldl_apply (ops : List BitOp) (j : Nat) :
    ops.foldl BitOp.apply (fun _ => false) j = decide (ops.findSomeRev? (BitOp.tells j) = some true) := by
  have hstep : ∀ (s : Nat → Bool) (op : BitOp), op.apply s j = (op.tells j).getD (s j) := fun _ _ => rfl
  have hlast := foldl_findSomeRev (fun s : Nat → Bool => s j) hstep ops fun _ => false
  refine hlast.trans ?_
  cases ops.findSomeRev? (BitOp.tells j) with
  | none => rfl
  | some x => cases x <;> rfl

/-- The number of bytes is computed in `int`: the last seven sizes wrap to a negative one. -/
theorem isIndexSet_iff (hlt : n < 2 ^ 31) : IsIndexSet n ↔ n + 7 < 2 ^ 31 := by
  constructor
  · intro hset
    by_contra hover
    obtain ⟨h₁, r, hnew, -⟩ := hset Heap.empty
    rw [BitSetRef.new, BitSet.new_of_overflow hlt (Nat.not_lt.1 hover), error_bind] at hnew
    cases hnew
  · intro hfits h
    obtain ⟨h₁, r, hnew, hs⟩ := BitSetRef.stands_new hfits h
    refine ⟨h₁, r, hnew, fun ops hops => ?_⟩
    obtain ⟨h₂, hrun, hs₂, -⟩ := hs.run hops
    obtain ⟨hs₃, hne, hcopy⟩ := hs₂.toByteArray
    refine ⟨h₂, hrun, ?_, fun j hj => ?_, fun i => ?_, fun later hlater => ?_⟩
    · rw [Nat.ceilDiv_eq_add_pred_div]
      exact hs₂.holds.size_eq
    · exact (hs₂.holds.test_eq hj).trans (congrArg _ (foldl_apply ops j))
    · exact congrArg (BitSet.test · i) hcopy
    · obtain ⟨h₃, hlaterRun, -, hothers⟩ := hs₃.run hlater
      exact ⟨h₃, hlaterRun, hothers _ hne⟩

theorem isIndexSet_twelve : IsIndexSet 12 := (isIndexSet_iff (by decide)).2 (by decide)

/-- The largest `int` but six is a size that cannot be made. -/
theorem not_isIndexSet : ¬ IsIndexSet (2 ^ 31 - 7) := by
  intro hset
  obtain ⟨h₁, r, hnew, -⟩ := hset Heap.empty
  rw [BitSetRef.new, BitSet.new_of_overflow (by decide) (by decide), error_bind] at hnew
  cases hnew

end JavaClient
end Raiezau
