import Mathlib.Data.List.Basic

/-!
# Block — an array as `malloc` returns it

The cells of a block are empty until they are written.  To load an empty cell fails, and so does every access past
the end: an access that goes through is one that the block allows.
-/

namespace Raiezau
namespace Memory

universe u

structure Block (α : Type u) where
  cells : List (Option α)
  deriving DecidableEq, Repr

namespace Block

variable {α : Type u} {b b' : Block α} {i j n : Nat} {x : α}

def alloc (n : Nat) : Block α := ⟨List.replicate n none⟩

def size (b : Block α) : Nat := b.cells.length

def load (b : Block α) (i : Nat) : Option α := b.cells[i]?.join

def store (b : Block α) (i : Nat) (x : α) : Option (Block α) :=
  if i < b.size then some ⟨b.cells.set i (some x)⟩ else none

/-- `realloc`: the cells there is room for are kept. -/
def realloc (b : Block α) (n : Nat) : Block α :=
  ⟨b.cells.take n ++ List.replicate (n - b.size) none⟩

@[simp] theorem size_alloc : (alloc n : Block α).size = n := List.length_replicate

theorem lt_size_of_load (h : b.load i = some x) : i < b.size := by
  unfold load at h
  by_contra hge
  rw [List.getElem?_eq_none (Nat.le_of_not_lt hge)] at h
  cases h

theorem exists_store (hi : i < b.size) (x : α) : ∃ b', b.store i x = some b' := ⟨_, if_pos hi⟩

theorem lt_size_of_store (h : b.store i x = some b') : i < b.size := by
  unfold store at h
  by_contra hge
  rw [if_neg hge] at h
  cases h

theorem store_eq (h : b.store i x = some b') : b' = ⟨b.cells.set i (some x)⟩ := by
  unfold store at h
  rw [if_pos (lt_size_of_store h)] at h
  exact (Option.some.inj h).symm

theorem size_store (h : b.store i x = some b') : b'.size = b.size := by
  rw [store_eq h]
  exact List.length_set

theorem load_store_self (h : b.store i x = some b') : b'.load i = some x := by
  have hi : i < b.cells.length := lt_size_of_store h
  rw [store_eq h, load, List.getElem?_set_self hi]
  rfl

theorem load_store_of_ne (h : b.store i x = some b') (hj : j ≠ i) : b'.load j = b.load j := by
  rw [store_eq h, load, load, List.getElem?_set_ne (Ne.symm hj)]

theorem size_realloc (h : b.size ≤ n) : (b.realloc n).size = n := by
  unfold size at h
  simp only [size, realloc, List.length_append, List.length_take, List.length_replicate]
  omega

theorem load_realloc (h : b.size ≤ n) (hi : i < b.size) : (b.realloc n).load i = b.load i := by
  unfold size at h hi
  rw [load, load, realloc, List.take_of_length_le h, List.getElem?_append_left hi]

/-! ### A cell and what is around it -/

variable {front rest : List (Option α)} {cell : Option α}

theorem load_eq_of_cells (h : b.cells = front ++ cell :: rest) : b.load front.length = cell := by
  rw [load, h, List.getElem?_append_right (Nat.le_refl _), Nat.sub_self]
  rfl

theorem store_eq_of_cells (h : b.cells = front ++ cell :: rest) (x : α) :
    b.store front.length x = some ⟨front ++ some x :: rest⟩ := by
  have hin : front.length < b.size := by
    rw [size, h, List.length_append, List.length_cons]
    omega
  rw [store, if_pos hin, h, List.set_append_right _ _ (Nat.le_refl _), Nat.sub_self]
  rfl

end Block

end Memory
end Raiezau
