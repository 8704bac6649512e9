import Raiezau.Bytes.RandomAccess

/-!
# Ring — a sequence of cells read around its end

`ring s r n` are the `n` cells from position `r` on, going on at the start after the last cell.  The rules
say how such a window grows when cells are written behind it and shrinks when it is advanced, by the
position of the end of the sequence: behind the window, under what is written, or inside the window.
-/

namespace Raiezau
namespace Bytes

universe u

variable {α : Type u} {z : α} {s d : List α} {r n k : Nat}

def ring (s : List α) (r n : Nat) : List α := (s.drop r ++ s).take n

theorem length_ring (hn : n ≤ s.length) : (ring s r n).length = n := by
  simp only [ring, List.length_take, List.length_append, List.length_drop]
  omega

@[simp] theorem ring_zero : ring s r 0 = [] := List.take_zero

theorem getElem?_ring (hr : r ≤ s.length) (hk : k < n) :
    (ring s r n)[k]? = if r + k < s.length then s[r + k]? else s[r + k - s.length]? := by
  rw [ring, List.getElem?_take_of_lt hk]
  split
  · next hin => rw [List.getElem?_append_left (by simp; omega), List.getElem?_drop]
  · next hout =>
      rw [List.getElem?_append_right (by simp; omega), List.length_drop]
      congr 1
      omega

theorem getElem?_ring_of_le (hk : n ≤ k) : (ring s r n)[k]? = none :=
  List.getElem?_take_eq_none hk

/-- A window that does not reach the end. -/
theorem ring_of_le (h : r + n ≤ s.length) : ring s r n = (s.drop r).take n := by
  rw [ring, List.take_append_of_le_length]
  simp
  omega

/-- A window that goes on at the start. -/
theorem ring_of_lt (h : s.length < r + n) (hr : r ≤ s.length) :
    ring s r n = s.drop r ++ s.take (r + n - s.length) := by
  rw [ring, List.take_append, List.take_of_length_le (by simp; omega), List.length_drop]
  congr 2
  omega

/-! ## Writing behind the window -/

/-- A cell of the sequence after a write within it. -/
theorem getElem?_writeAt_within {pos : Nat} (hpos : pos + d.length ≤ s.length) :
    (writeAt z s pos d)[k]? = if pos ≤ k ∧ k < pos + d.length then d[k - pos]? else s[k]? := by
  by_cases hd : d = []
  · subst hd
    have hempty : ¬ (pos ≤ k ∧ k < pos + ([] : List α).length) := by simp
    rw [if_neg hempty]
    rfl
  · rw [getElem?_writeAt hd]
    by_cases hlt : k < pos
    · have hin : k < s.length := by omega
      rw [if_pos hlt, if_neg (by omega), List.getElem?_eq_getElem hin]
      rfl
    · by_cases hin : k < pos + d.length
      · rw [if_neg hlt, if_pos hin, if_pos (by omega)]
      · rw [if_neg hlt, if_neg hin, if_neg (by omega)]

theorem length_writeAt_within {pos : Nat} (hpos : pos + d.length ≤ s.length) :
    (writeAt z s pos d).length = s.length := by
  by_cases hd : d = []
  · subst hd
    rfl
  · rw [length_writeAt hd]
    omega

theorem ring_append (h : r + n + d.length ≤ s.length) :
    ring (writeAt z s (r + n) d) r (n + d.length) = ring s r n ++ d := by
  have hlen := length_writeAt_within (z := z) h
  refine List.ext_getElem? fun k => ?_
  rcases Nat.lt_or_ge k (n + d.length) with hk | hk
  · rw [getElem?_ring (by omega) hk, hlen, if_pos (by omega), getElem?_writeAt_within h]
    have hring : (ring s r n).length = n := length_ring (by omega)
    rcases Nat.lt_or_ge k n with hkn | hkn
    · rw [if_neg (by omega), List.getElem?_append_left (by omega), getElem?_ring (by omega) hkn,
        if_pos (by omega)]
    · rw [if_pos (by omega), List.getElem?_append_right (by omega), hring]
      congr 1
      omega
  · rw [getElem?_ring_of_le hk, List.getElem?_eq_none]
    rw [List.length_append, length_ring (by omega)]
    exact hk

/-- The window ends where the sequence goes on at its start. -/
theorem ring_append_wrapped (hr : r ≤ s.length) (hwrap : s.length ≤ r + n)
    (h : n + d.length ≤ s.length) :
    ring (writeAt z s (r + n - s.length) d) r (n + d.length) = ring s r n ++ d := by
  have hpos : r + n - s.length + d.length ≤ s.length := by omega
  have hlen := length_writeAt_within (z := z) hpos
  refine List.ext_getElem? fun k => ?_
  rcases Nat.lt_or_ge k (n + d.length) with hk | hk
  · rw [getElem?_ring (by omega) hk, hlen]
    have hring : (ring s r n).length = n := length_ring (by omega)
    rcases Nat.lt_or_ge k n with hkn | hkn
    · rw [List.getElem?_append_left (by omega), getElem?_ring (by omega) hkn]
      by_cases hin : r + k < s.length
      · rw [if_pos hin, if_pos hin, getElem?_writeAt_within hpos, if_neg (by omega)]
      · rw [if_neg hin, if_neg hin, getElem?_writeAt_within hpos, if_neg (by omega)]
    · rw [if_neg (by omega), getElem?_writeAt_within hpos, if_pos (by omega),
        List.getElem?_append_right (by omega), hring]
      congr 1
      omega
  · rw [getElem?_ring_of_le hk, List.getElem?_eq_none]
    rw [List.length_append, length_ring (by omega)]
    exact hk

/-- What is written is cut at the end of the sequence. -/
theorem ring_append_across (hr : r + n ≤ s.length) (hcross : s.length < r + n + d.length)
    (h : n + d.length ≤ s.length) :
    ring (writeAt z (writeAt z s (r + n) (d.take (s.length - (r + n)))) 0
      (d.drop (s.length - (r + n)))) r (n + d.length) = ring s r n ++ d := by
  have hfirst : (d.take (s.length - (r + n))).length = s.length - (r + n) := by
    rw [List.length_take]
    omega
  have hlen : (writeAt z s (r + n) (d.take (s.length - (r + n)))).length = s.length :=
    length_writeAt_within (by omega)
  have hone := ring_append (z := z) (s := s) (r := r) (n := n) (d := d.take (s.length - (r + n)))
    (by omega)
  have htwo := ring_append_wrapped (z := z) (s := writeAt z s (r + n) (d.take (s.length - (r + n))))
    (r := r) (n := n + (s.length - (r + n))) (d := d.drop (s.length - (r + n))) (by omega) (by omega)
    (by rw [List.length_drop, hlen]; omega)
  rw [hfirst] at hone
  have hpos : r + (n + (s.length - (r + n))) -
      (writeAt z s (r + n) (d.take (s.length - (r + n)))).length = 0 := by omega
  have hcount : n + (s.length - (r + n)) + (d.drop (s.length - (r + n))).length = n + d.length := by
    rw [List.length_drop]
    omega
  rw [hpos, hcount, hone, List.append_assoc, List.take_append_drop] at htwo
  exact htwo

/-! ## Advancing the window -/

theorem drop_ring (h : r + k ≤ s.length) : (ring s r n).drop k = ring s (r + k) (n - k) := by
  have hdrop : s.drop (r + k) = (s.drop r).drop k := by rw [List.drop_drop]
  rw [ring, ring, List.drop_take, hdrop, List.drop_append_of_le_length]
  rw [List.length_drop]
  omega

theorem drop_ring_wrapped (hr : r ≤ s.length) (hk : s.length ≤ r + k) (hkn : k ≤ n)
    (hn : n ≤ s.length) : (ring s r n).drop k = ring s (r + k - s.length) (n - k) := by
  refine List.ext_getElem? fun i => ?_
  rw [List.getElem?_drop]
  rcases Nat.lt_or_ge i (n - k) with hi | hi
  · rw [getElem?_ring hr (by omega), getElem?_ring (by omega) hi, if_neg (by omega), if_pos (by omega)]
    congr 1
    omega
  · rw [getElem?_ring_of_le (by omega), getElem?_ring_of_le hi]

end Bytes
end Raiezau
