import Mathlib.Data.List.Basic

/-!
# Heap — cells that are allocated once and may be freed

A heap is the list of all cells ever allocated; an address is a position in it.  A freed cell stays in
the list as `none`, so that an address is never handed out twice and a dangling address is a concrete,
decidable state of affairs: `read` fails on it.  What a program does that follows such an address is left open, and so
is the reuse of a block by a later allocation.
-/

namespace Raiezau
namespace Memory

universe u

abbrev Addr := Nat

structure Heap (α : Type u) where
  cells : List (Option α)
  deriving DecidableEq, Repr

namespace Heap

variable {α : Type u}

def empty : Heap α := ⟨[]⟩

/-- The cell at an address; `none` for an address never allocated and for a freed one. -/
def read (h : Heap α) (a : Addr) : Option α := (h.cells[a]?).join

/-- The address the next allocation returns. -/
def fresh (h : Heap α) : Addr := h.cells.length

def alloc (h : Heap α) (x : α) : Heap α := ⟨h.cells ++ [some x]⟩

def free (h : Heap α) (a : Addr) : Heap α := ⟨h.cells.set a none⟩

/-- Overwrite a live cell; a write through a dangling address has no effect here. -/
def modify (h : Heap α) (a : Addr) (f : α → α) : Heap α := ⟨h.cells.modify a (Option.map f)⟩

/-- What the live cells hold. -/
def live (h : Heap α) : List α := h.cells.filterMap id

/-- An address that was handed out and freed since. -/
def Freed (h : Heap α) (a : Addr) : Prop := a < h.fresh ∧ h.read a = none

instance (h : Heap α) (a : Addr) [DecidableEq α] : Decidable (h.Freed a) := by
  unfold Freed
  infer_instance

/-! ## Reading after an operation -/

@[simp] theorem read_empty (a : Addr) : (empty : Heap α).read a = none := by
  simp [read, empty]

theorem lt_fresh_of_read {h : Heap α} {a : Addr} {x : α} (hr : h.read a = some x) : a < h.fresh := by
  unfold read at hr
  unfold fresh
  by_contra hge
  simp [List.getElem?_eq_none (Nat.le_of_not_lt hge)] at hr

theorem read_fresh (h : Heap α) : h.read h.fresh = none := by
  simp [read, fresh]

@[simp] theorem read_alloc_fresh (h : Heap α) (x : α) : (h.alloc x).read h.fresh = some x := by
  simp [read, alloc, fresh]

theorem read_alloc_of_ne {h : Heap α} {x : α} {a : Addr} (ha : a ≠ h.fresh) :
    (h.alloc x).read a = h.read a := by
  unfold fresh at ha
  rcases Nat.lt_or_gt_of_ne ha with hlt | hgt
  · simp [read, alloc, List.getElem?_append_left hlt]
  · have h₁ : (h.cells ++ [some x])[a]? = none := by
      apply List.getElem?_eq_none
      simp
      omega
    have h₂ : h.cells[a]? = none := List.getElem?_eq_none (Nat.le_of_lt hgt)
    simp [read, alloc, h₁, h₂]

theorem read_alloc (h : Heap α) (x : α) (a : Addr) :
    (h.alloc x).read a = if a = h.fresh then some x else h.read a := by
  split
  · next ha => simp [ha]
  · next ha => exact read_alloc_of_ne ha

/-- Allocation does not disturb the cells that are live. -/
theorem read_alloc_of_read {h : Heap α} {x y : α} {a : Addr} (hr : h.read a = some y) :
    (h.alloc x).read a = some y := by
  rw [read_alloc_of_ne (Nat.ne_of_lt (lt_fresh_of_read hr)), hr]

theorem read_free (h : Heap α) (a b : Addr) :
    (h.free a).read b = if b = a then none else h.read b := by
  by_cases hab : b = a
  · subst hab
    by_cases hlt : b < h.cells.length
    · simp [read, free, hlt]
    · simp [read, free, hlt]
  · simp [read, free, hab, List.getElem?_set_ne (Ne.symm hab)]

@[simp] theorem read_free_self (h : Heap α) (a : Addr) : (h.free a).read a = none := by
  simp [read_free]

theorem read_modify (h : Heap α) (a b : Addr) (f : α → α) :
    (h.modify a f).read b = if b = a then (h.read b).map f else h.read b := by
  by_cases hab : b = a
  · subst hab
    cases hc : h.cells[b]? with
    | none => simp [read, modify, hc]
    | some o => cases o <;> simp [read, modify, hc]
  · simp [read, modify, hab, Ne.symm hab]

theorem mem_live_iff {h : Heap α} {x : α} : x ∈ h.live ↔ ∃ a, h.read a = some x := by
  rw [live, List.mem_filterMap]
  simp only [id_eq, exists_eq_right, List.mem_iff_getElem?, read, Option.join_eq_some_iff]

theorem live_alloc (h : Heap α) (x : α) : (h.alloc x).live = h.live ++ [x] := by
  rw [live, alloc, List.filterMap_append]
  rfl

/-- Two cells may be freed in either order. -/
theorem free_comm (h : Heap α) {a b : Addr} (hab : a ≠ b) : (h.free a).free b = (h.free b).free a :=
  congrArg Heap.mk (List.set_comm none none hab)

@[simp] theorem fresh_alloc (h : Heap α) (x : α) : (h.alloc x).fresh = h.fresh + 1 := by
  simp [fresh, alloc]

@[simp] theorem fresh_free (h : Heap α) (a : Addr) : (h.free a).fresh = h.fresh := by
  simp [fresh, free]

@[simp] theorem fresh_modify (h : Heap α) (a : Addr) (f : α → α) :
    (h.modify a f).fresh = h.fresh := by
  simp [fresh, modify]

end Heap

end Memory
end Raiezau
