import Mathlib.Data.List.Basic

/-!
# RandomAccess — reading and writing a sequence of cells at a position

`readAt` and `writeAt` are the usual operations of a random-access file over an arbitrary cell type: a
read past the end yields a filler, a write past the end fills the gap with it.  Everything about them
follows from their two lookup rules, `getElem?_readAt` and `getElem?_writeAt`.
-/

namespace Raiezau
namespace Bytes

universe u

variable {α : Type u} {z : α} {s d : List α} {pos n k : Nat}

/-- Extend a sequence with the filler to a given length. -/
def padTo (z : α) (n : Nat) (s : List α) : List α := s ++ List.replicate (n - s.length) z

/-- The `n` cells from `pos` on, fillers standing for those past the end. -/
def readAt (z : α) (s : List α) (pos n : Nat) : List α := padTo z n ((s.drop pos).take n)

/-- Put `d` at `pos`; nothing to put leaves the sequence as it is. -/
def writeAt (z : α) (s : List α) (pos : Nat) (d : List α) : List α :=
  if d.isEmpty then s else (padTo z pos s).take pos ++ d ++ s.drop (pos + d.length)

theorem length_readAt : (readAt z s pos n).length = n := by
  simp only [readAt, padTo, List.length_append, List.length_take, List.length_drop,
    List.length_replicate]
  omega

theorem getElem?_readAt (hk : k < n) : (readAt z s pos n)[k]? = some (s[pos + k]?.getD z) := by
  unfold readAt padTo
  rcases Nat.lt_or_ge k ((s.drop pos).take n).length with hlt | hge
  · have hin : pos + k < s.length := by
      simp only [List.length_take, List.length_drop] at hlt
      omega
    rw [List.getElem?_append_left hlt, List.getElem?_take_of_lt hk, List.getElem?_drop,
      List.getElem?_eq_getElem hin]
    rfl
  · have hout : s.length ≤ pos + k := by
      simp only [List.length_take, List.length_drop] at hge
      omega
    rw [List.getElem?_append_right hge, List.getElem?_eq_none hout, List.getElem?_replicate_of_lt]
    · rfl
    · omega

theorem length_writeAt (hd : d ≠ []) : (writeAt z s pos d).length = max s.length (pos + d.length) := by
  have hne : d.isEmpty = false := by simpa using hd
  simp only [writeAt, hne, padTo, List.length_append, List.length_take, List.length_drop,
    List.length_replicate, Bool.false_eq_true, if_false]
  omega

/-- A cell after a write: the gap before it is filled, the cells it covers are the new ones. -/
theorem getElem?_writeAt (hd : d ≠ []) :
    (writeAt z s pos d)[k]? =
      if k < pos then some (s[k]?.getD z)
      else if k < pos + d.length then d[k - pos]?
      else s[k]? := by
  have hne : d.isEmpty = false := by simpa using hd
  have hpre : ((padTo z pos s).take pos).length = pos := by
    simp only [padTo, List.length_take, List.length_append, List.length_replicate]
    omega
  simp only [writeAt, hne, Bool.false_eq_true, if_false, List.append_assoc]
  split
  · next hlt =>
      rw [List.getElem?_append_left (by omega), List.getElem?_take_of_lt hlt, padTo]
      rcases Nat.lt_or_ge k s.length with hin | hout
      · rw [List.getElem?_append_left hin, List.getElem?_eq_getElem hin]
        rfl
      · rw [List.getElem?_append_right hout, List.getElem?_eq_none hout,
          List.getElem?_replicate_of_lt (by omega)]
        rfl
  · next hge =>
      rw [List.getElem?_append_right (by omega), hpre]
      split
      · next hin => rw [List.getElem?_append_left (by omega)]
      · next hout =>
          rw [List.getElem?_append_right (by omega), List.getElem?_drop]
          congr 1
          omega

/-- A cell after a write, those past the end being fillers. -/
theorem getD_writeAt (hd : d ≠ []) : (writeAt z s pos d)[k]?.getD z =
    if pos ≤ k ∧ k < pos + d.length then d[k - pos]?.getD z else s[k]?.getD z := by
  rw [getElem?_writeAt hd]
  by_cases hlt : k < pos
  · rw [if_pos hlt, if_neg fun h => Nat.not_le.2 hlt h.1]
    rfl
  · rw [if_neg hlt]
    by_cases hin : k < pos + d.length
    · rw [if_pos hin, if_pos ⟨Nat.not_lt.1 hlt, hin⟩]
    · rw [if_neg hin, if_neg fun h => hin h.2]

theorem getD_take : (s.take n)[k]?.getD z = if k < n then s[k]?.getD z else z := by
  by_cases hk : k < n
  · rw [if_pos hk, List.getElem?_take_of_lt hk]
  · rw [if_neg hk, List.getElem?_eq_none]
    · rfl
    · exact Nat.le_trans (List.length_take_le n s) (Nat.not_lt.1 hk)

/-- Two sequences are the same if and only if they are so cell by cell. -/
theorem eq_iff_getD (z : α) : d = s ↔ d.length = s.length ∧ ∀ k < s.length, d[k]?.getD z = s[k]?.getD z := by
  constructor
  · rintro rfl
    exact ⟨rfl, fun _ _ => rfl⟩
  · rintro ⟨hlen, hcells⟩
    refine List.ext_getElem hlen fun k hkd hks => ?_
    have hcell := hcells k hks
    rw [List.getElem?_eq_getElem hkd, List.getElem?_eq_getElem hks] at hcell
    exact hcell

/-- Two reads agree if and only if they agree cell by cell. -/
theorem readAt_eq_readAt_iff {s' : List α} :
    readAt z s pos n = readAt z s' pos n ↔ ∀ k < n, s[pos + k]?.getD z = s'[pos + k]?.getD z := by
  constructor
  · intro h k hk
    have hcell := congrArg (fun l : List α => l[k]?) h
    rw [getElem?_readAt hk, getElem?_readAt hk] at hcell
    exact Option.some.inj hcell
  · intro h
    refine List.ext_getElem? fun k => ?_
    by_cases hk : k < n
    · rw [getElem?_readAt hk, getElem?_readAt hk, h k hk]
    · rw [List.getElem?_eq_none, List.getElem?_eq_none]
      · rw [length_readAt]
        omega
      · rw [length_readAt]
        omega

/-- A read from the start, of no more than there is. -/
theorem readAt_zero_of_le (hn : n ≤ s.length) : readAt z s 0 n = s.take n := by
  rw [readAt, padTo, List.drop_zero, List.length_take_of_le hn, Nat.sub_self, List.replicate_zero, List.append_nil]

/-! ## Sequences that go on with fillers -/

/-- The sequences agree in every cell, fillers standing for those past the end. -/
def Alike (z : α) (s s' : List α) : Prop := ∀ k : Nat, s[k]?.getD z = s'[k]?.getD z

theorem Alike.symm {s' : List α} (h : Alike z s s') : Alike z s' s := fun k => (h k).symm

theorem Alike.trans {s' s'' : List α} (h : Alike z s s') (h' : Alike z s' s'') : Alike z s s'' :=
  fun k => (h k).trans (h' k)

theorem getD_drop : (s.drop n)[k]?.getD z = s[n + k]?.getD z := by
  rw [List.getElem?_drop]

theorem Alike.drop {s' : List α} (h : Alike z s s') (n : Nat) : Alike z (s.drop n) (s'.drop n) := by
  intro k
  rw [getD_drop, getD_drop]
  exact h (n + k)

theorem Alike.readAt_eq {s' : List α} (h : Alike z s s') (pos n : Nat) : readAt z s pos n = readAt z s' pos n :=
  readAt_eq_readAt_iff.2 fun k _ => h (pos + k)

/-- Past the end it makes no difference how many cells are taken. -/
theorem alike_drop_min (z : α) (s : List α) (n : Nat) : Alike z (s.drop (min n s.length)) (s.drop n) := by
  intro k
  rw [getD_drop, getD_drop]
  by_cases hn : n ≤ s.length
  · rw [Nat.min_eq_left hn]
  · rw [List.getElem?_eq_none (by omega), List.getElem?_eq_none (by omega)]

/-- A sequence that is the same further on is all fillers: it has an end. -/
theorem alike_nil_of_shift {m : Nat} (hm : 0 < m) (h : Alike z s (s.drop m)) : Alike z s [] := by
  have hend : ∀ j k, s.length - k ≤ j → s[k]?.getD z = z := by
    intro j
    induction j with
    | zero =>
        intro k hk
        rw [List.getElem?_eq_none (by omega)]
        rfl
    | succ j ih =>
        intro k hk
        rw [h k, getD_drop]
        exact ih (m + k) (by omega)
  intro k
  rw [hend _ k (Nat.le_refl _)]
  rfl

theorem alike_nil_iff : Alike z s [] ↔ ∀ c ∈ s, c = z := by
  constructor
  · intro h c hc
    obtain ⟨k, hk, rfl⟩ := List.getElem_of_mem hc
    have hcell := h k
    rwa [List.getElem?_eq_getElem hk] at hcell
  · intro h k
    by_cases hk : k < s.length
    · rw [List.getElem?_eq_getElem hk]
      exact h _ (List.getElem_mem hk)
    · rw [List.getElem?_eq_none (by omega)]
      rfl

end Bytes
end Raiezau
