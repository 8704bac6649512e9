import Raiezau.CUtil.Lookups

/-!
# RemoveValue — what `list_remove_value` leaves

The loop of `list_remove_value` in `cutil/list.c`, which is that of `List::removeValue` in the C++ tracker, goes
on from the node behind the one that it has unlinked: that node's element is not compared.  It is left in the
list, whatever it is, so the value goes entirely where no two neighbours are equal to it and nowhere else.
-/

namespace Raiezau
namespace CUtil

open Memory

variable {D : Type} {v x y : Option D} {xs : List (Option D)}

/-! ## Sequences -/

/-- No two neighbours are both the value. -/
def Apart (value : Option D) (xs : List (Option D)) : Prop :=
  xs.IsChain fun x y => ¬ (x = value ∧ y = value)

/-- An element that is not the value keeps the ones around it apart. -/
theorem apart_cons_of_ne (hx : x ≠ v) : Apart v (x :: xs) ↔ Apart v xs := by
  refine List.isChain_cons.trans (and_iff_right ?_)
  exact fun y _ hboth => hx hboth.1

theorem apart_cons_cons_of_ne (hy : y ≠ v) : Apart v (x :: y :: xs) ↔ Apart v xs := by
  refine List.isChain_cons_cons.trans ((and_iff_right ?_).trans (apart_cons_of_ne hy))
  exact fun hboth => hy hboth.2

theorem not_apart_self (v : Option D) (xs : List (Option D)) : ¬ Apart v (v :: v :: xs) :=
  fun h => (List.isChain_cons_cons.1 h).1 ⟨rfl, rfl⟩

variable [DecidableEq D]

instance (value : Option D) (xs : List (Option D)) : Decidable (Apart value xs) := by
  unfold Apart
  infer_instance

/-- The elements that are not the value. -/
def others (value : Option D) (xs : List (Option D)) : List (Option D) := xs.filter fun x => x ≠ value

theorem others_cons_self (v : Option D) (xs : List (Option D)) : others v (v :: xs) = others v xs :=
  List.filter_cons_of_neg (by simp)

theorem others_cons_of_ne (hx : x ≠ v) : others v (x :: xs) = x :: others v xs :=
  List.filter_cons_of_pos (decide_eq_true hx)

theorem not_mem_others (v : Option D) (xs : List (Option D)) : v ∉ others v xs := by
  simp [others]

/-- The loop leaves the other elements, and only these, where no two neighbours are the value. -/
theorem removeValue_eq_others_iff (v : Option D) (xs : List (Option D)) :
    removeValue v xs = others v xs ↔ Apart v xs := by
  induction xs using removeValue.induct v with
  | case1 => exact iff_of_true rfl .nil
  | case2 =>
      refine iff_of_true ?_ (.singleton _)
      rw [removeValue, if_pos rfl, others_cons_self]
      rfl
  | case3 x hx =>
      refine iff_of_true ?_ (.singleton _)
      rw [removeValue, if_neg hx, others_cons_of_ne hx]
      rfl
  | case4 y xs ih =>
      rw [removeValue, if_pos rfl, others_cons_self]
      by_cases hy : y = v
      · -- The second of two equal neighbours is left.
        subst hy
        refine iff_of_false (fun heq => ?_) (not_apart_self y xs)
        have hmem : y ∈ others y (y :: xs) := heq ▸ List.mem_cons_self
        exact not_mem_others y _ hmem
      · rw [others_cons_of_ne hy, List.cons_inj_right, ih, apart_cons_cons_of_ne hy]
  | case5 x y xs hx ih =>
      rw [removeValue, if_neg hx, others_cons_of_ne hx, List.cons_inj_right, ih, apart_cons_of_ne hx]

/-! ## Lists -/

namespace CList

variable {s : CList D} {back : Addr} {nodes : List Addr}

/-- After the call the list holds the elements that are not the value, in their order, and its size is their
number. -/
def RemovesEvery (s : CList D) (back : Addr) (value : Option D) (xs : List (Option D)) : Prop :=
  ∃ s' nodes', s.listRemoveValue value = some s' ∧ s'.Represents back nodes' (others value xs) ∧
    s'.size = (others value xs).length

/-- The list that is left is the one that the loop leaves of the sequence. -/
theorem Chained.removesEvery_iff_eq (h : s.Chained back nodes xs) (hsize : s.size = xs.length) :
    s.RemovesEvery back v xs ↔ removeValue v xs = others v xs := by
  obtain ⟨s', nodes', hremove, hrep⟩ := h.listRemoveValue (hsize.trans h.length_eq.symm) v
  constructor
  · rintro ⟨s'', nodes'', hremove', hrep', -⟩
    obtain rfl : s' = s'' := Option.some.inj (hremove.symm.trans hremove')
    exact hrep.unique hrep'
  · intro heq
    rw [heq] at hrep
    exact ⟨s', nodes', hremove, hrep, hrep.length_xs⟩

/-- Wherever its cursor is, `list_remove_value` takes every occurrence of a value out of a list, and nothing else,
if and only if no two neighbours in the list are both the value. -/
theorem removesEvery_iff (h : s.Chained back nodes xs) (hsize : s.size = xs.length) (v : Option D) :
    s.RemovesEvery back v xs ↔ Apart v xs :=
  (h.removesEvery_iff_eq hsize).trans (removeValue_eq_others_iff v xs)

theorem removesEvery_iff_first_and_last : ∃ (s : CList Nat) (nodes : List Addr),
    s.Chained 1 nodes [some 7, some 8, some 7] ∧ s.size = 3 ∧
      s.RemovesEvery 1 (some 7) [some 7, some 8, some 7] := by
  obtain ⟨s, nodes, hstands⟩ := exists_stands [some 7, some 8, some 7]
  exact ⟨s, nodes, hstands.toChained, hstands.length_xs,
    (removesEvery_iff hstands.toChained hstands.length_xs (some 7)).2 (by decide)⟩

/-- Of two equal elements the second is left, and the size says so. -/
theorem second_equal_left : ∃ (s s' : CList Nat) (nodes nodes' : List Addr),
    s.Stands 1 nodes [some 7, some 7] ∧ ¬ s.RemovesEvery 1 (some 7) [some 7, some 7] ∧
      s.listRemoveValue (some 7) = some s' ∧ s'.Represents 1 nodes' [some 7] ∧ s'.size = 1 := by
  obtain ⟨s, nodes, hstands⟩ := exists_stands [some 7, some 7]
  obtain ⟨s', nodes', hremove, hrep'⟩ := hstands.toChained.listRemoveValue hstands.size_eq (some 7)
  have hleft : removeValue (some 7) [some 7, some 7] = [some 7] := by decide
  rw [hleft] at hrep'
  refine ⟨s, s', nodes, nodes', hstands, fun hall => ?_, hremove, hrep', hrep'.length_xs⟩
  have heq := (hstands.toChained.removesEvery_iff_eq hstands.length_xs).1 hall
  exact absurd heq (by decide)

end CList

end CUtil
end Raiezau
