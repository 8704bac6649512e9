import Raiezau.Bytes.RandomAccess
import Raiezau.Machine.Fold

/-!
# Edits — a sequence of cells after writes and cuts

A cell holds what the last edit that bears on it leaves there (`getD_edited`), and the length is within a bound if
the last edit that bears on that says so (`length_edited_le_iff`); an edit that bears on nothing leaves things as
they were.
-/

namespace Raiezau
namespace Bytes

open Machine

universe u

variable {α : Type u} {z : α} {k m : Nat}

inductive Edit (α : Type u)
  | put (pos : Nat) (d : List α)
  | cut (n : Nat)
  deriving DecidableEq, Repr

namespace Edit

def apply (z : α) (s : List α) : Edit α → List α
  | put pos d => writeAt z s pos d
  | cut n => s.take n

/-- What an edit leaves in the cell at `k`, if it bears on it. -/
def leaves (z : α) (k : Nat) : Edit α → Option α
  | put pos d => if pos ≤ k ∧ k < pos + d.length then some (d[k - pos]?.getD z) else none
  | cut n => if n ≤ k then some z else none

/-- Whether an edit brings the length within `m` or past it, if it does either. -/
def within (m : Nat) : Edit α → Option Bool
  | put pos d => if d.length = 0 ∨ pos + d.length ≤ m then none else some false
  | cut n => if n ≤ m then some true else none

end Edit

def edited (z : α) (es : List (Edit α)) (s : List α) : List α := es.foldl (Edit.apply z) s

theorem edited_append (z : α) (es es' : List (Edit α)) (s : List α) :
    edited z (es ++ es') s = edited z es' (edited z es s) :=
  List.foldl_append

theorem getD_apply (s : List α) (e : Edit α) :
    (e.apply z s)[k]?.getD z = (e.leaves z k).getD (s[k]?.getD z) := by
  cases e with
  | put pos d =>
      rw [Edit.apply, Edit.leaves]
      by_cases hd : d = []
      · have hnot : ¬ (pos ≤ k ∧ k < pos + d.length) := by
          rw [hd, List.length_nil]
          omega
        rw [if_neg hnot, hd]
        rfl
      · rw [getD_writeAt hd]
        split_ifs <;> rfl
  | cut n =>
      rw [Edit.apply, Edit.leaves]
      rw [getD_take]
      by_cases hk : n ≤ k
      · rw [if_pos hk, if_neg (Nat.not_lt.2 hk)]
        rfl
      · rw [if_neg hk, if_pos (Nat.not_le.1 hk)]
        rfl

theorem length_apply_le (s : List α) (e : Edit α) :
    decide ((e.apply z s).length ≤ m) = (e.within m).getD (decide (s.length ≤ m)) := by
  cases e with
  | put pos d =>
      rw [Edit.apply, Edit.within]
      by_cases hd : d = []
      · rw [if_pos (.inl (congrArg List.length hd)), hd]
        rfl
      · have hlen : (writeAt z s pos d).length = max s.length (pos + d.length) := length_writeAt hd
        by_cases hend : pos + d.length ≤ m
        · rw [if_pos (.inr hend), Option.getD_none, decide_eq_decide, hlen]
          omega
        · rw [if_neg fun h => h.elim (hd ∘ List.length_eq_zero_iff.1) hend, Option.getD_some, decide_eq_false_iff_not, hlen]
          omega
  | cut n =>
      rw [Edit.apply, Edit.within]
      rw [List.length_take]
      by_cases hn : n ≤ m
      · rw [if_pos hn, Option.getD_some, decide_eq_true_iff]
        omega
      · rw [if_neg hn, Option.getD_none, decide_eq_decide]
        omega

/-- Groups of edits that each keep a bound on the length. -/
theorem length_edited_flatMap_le {ι : Type*} {g : ι → List (Edit α)} {l : List ι}
    (hstep : ∀ x ∈ l, ∀ c : List α, c.length ≤ m → (edited z (g x) c).length ≤ m) {s : List α}
    (hs : s.length ≤ m) : (edited z (l.flatMap g) s).length ≤ m := by
  induction l generalizing s with
  | nil => exact hs
  | cons x l ih =>
      rw [List.flatMap_cons, edited_append]
      exact ih (fun y hy => hstep y (List.mem_cons_of_mem x hy)) (hstep x List.mem_cons_self s hs)

/-- A cell after all the edits. -/
theorem getD_edited (z : α) (es : List (Edit α)) (s : List α) (k : Nat) :
    (edited z es s)[k]?.getD z = (es.findSomeRev? (Edit.leaves z k)).getD (s[k]?.getD z) :=
  foldl_findSomeRev (fun s : List α => s[k]?.getD z) getD_apply es s

/-- The length after all the edits. -/
theorem length_edited_le (z : α) (es : List (Edit α)) (s : List α) (m : Nat) :
    decide ((edited z es s).length ≤ m) = (es.findSomeRev? (Edit.within m)).getD (decide (s.length ≤ m)) :=
  foldl_findSomeRev (fun s : List α => decide (s.length ≤ m)) length_apply_le es s

theorem getD_eq_self_iff {β : Type*} {o : Option β} {b : β} : o.getD b = b ↔ ∀ x ∈ o, x = b := by
  cases o with
  | none => exact iff_of_true rfl nofun
  | some x => simp

/-- Edits change nothing if and only if the last ones say what was so before. -/
theorem edited_eq_self_iff (z : α) (es : List (Edit α)) (s : List α) : edited z es s = s ↔
    (∀ k < s.length, ∀ x ∈ es.findSomeRev? (Edit.leaves z k), x = s[k]?.getD z) ∧
      ∀ m, ∀ b ∈ es.findSomeRev? (Edit.within m), b = decide (s.length ≤ m) := by
  have hcell : ∀ k, (edited z es s)[k]?.getD z = s[k]?.getD z ↔
      ∀ x ∈ es.findSomeRev? (Edit.leaves z k), x = s[k]?.getD z := by
    intro k
    rw [getD_edited, getD_eq_self_iff]
  have hbound : ∀ m, decide ((edited z es s).length ≤ m) = decide (s.length ≤ m) ↔
      ∀ b ∈ es.findSomeRev? (Edit.within m), b = decide (s.length ≤ m) := by
    intro m
    rw [length_edited_le, getD_eq_self_iff]
  have hlen : (edited z es s).length = s.length ↔
      ∀ m, decide ((edited z es s).length ≤ m) = decide (s.length ≤ m) := by
    refine ⟨fun h m => by rw [h], fun h => Nat.le_antisymm ?_ ?_⟩
    · exact of_decide_eq_true ((h s.length).trans (decide_eq_true (Nat.le_refl _)))
    · exact of_decide_eq_true ((h (edited z es s).length).symm.trans (decide_eq_true (Nat.le_refl _)))
  rw [eq_iff_getD z, hlen, and_comm]
  exact and_congr (forall₂_congr fun k _ => hcell k) (forall_congr' hbound)

end Bytes
end Raiezau
