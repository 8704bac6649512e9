import Raiezau.CUtil.CString
import Raiezau.Memory.Block

/-!
# StringArray — C strings in arrays of characters

A string ends at the first NUL.  One that the array ends before, or a cell that was never written, has no value
to be read: `strcat` looks for the end of the string it appends to, and writes a NUL of its own behind the new
characters.
-/

namespace Raiezau
namespace CUtil

open Memory

/-! ## Model -/

/-- The string that an array starts with. -/
def scanString : List (Option Char) → Option CString
  | [] => none
  | none :: _ => none
  | some c :: cells => if c = '\x00' then some [] else (scanString cells).map (c :: ·)

def stringAt (b : Block Char) : Option CString := scanString b.cells

/-- The characters are written one after the other, from `i` on. -/
def storeAll : List Char → Nat → Block Char → Option (Block Char)
  | [], _, b => some b
  | c :: cs, i, b => do
      let b ← b.store i c
      storeAll cs (i + 1) b

def strcat (b : Block Char) (src : CString) : Option (Block Char) := do
  let s ← stringAt b
  storeAll (src ++ ['\x00']) s.length b

/-! ## Strings -/

variable {b b' : Block Char} {cells rest : List (Option Char)} {s src : CString} {i n : Nat}

theorem scanString_append (hs : '\x00' ∉ s) : scanString (s.map some ++ some '\x00' :: rest) = some s := by
  induction s with
  | nil => rfl
  | cons c s ih =>
      obtain ⟨hc, hs⟩ := not_or.1 (List.mem_cons.not.1 hs)
      rw [List.map_cons, List.cons_append, scanString, if_neg (Ne.symm hc), ih hs]
      rfl

theorem scanString_eq_some_iff :
    scanString cells = some s ↔ '\x00' ∉ s ∧ ∃ rest, cells = s.map some ++ some '\x00' :: rest := by
  constructor
  · intro h
    induction cells generalizing s with
    | nil => cases h
    | cons cell cells ih =>
        cases cell with
        | none => cases h
        | some c =>
            rw [scanString] at h
            split at h
            · next hc =>
                cases h
                exact ⟨List.not_mem_nil, cells, by rw [hc]; rfl⟩
            · next hc =>
                obtain ⟨t, ht, rfl⟩ := Option.map_eq_some_iff.1 h
                obtain ⟨hnul, rest, rfl⟩ := ih ht
                exact ⟨List.not_mem_cons_of_ne_of_not_mem (Ne.symm hc) hnul, rest, rfl⟩
  · rintro ⟨hs, rest, rfl⟩
    exact scanString_append hs

/-- The terminating NUL is in the array. -/
theorem length_lt_of_stringAt (h : stringAt b = some s) : s.length < b.size := by
  obtain ⟨-, rest, hcells⟩ := scanString_eq_some_iff.1 h
  rw [Block.size, hcells, List.length_append, List.length_map, List.length_cons]
  omega

/-- The characters of the string and its NUL can be read. -/
theorem exists_load (h : stringAt b = some s) (hi : i ≤ s.length) : ∃ c, b.load i = some c := by
  obtain ⟨-, rest, hcells⟩ := scanString_eq_some_iff.1 h
  rw [Block.load, hcells]
  rcases Nat.lt_or_eq_of_le hi with hlt | rfl
  · rw [List.getElem?_append_left (by rwa [List.length_map]), List.getElem?_map, List.getElem?_eq_getElem hlt]
    exact ⟨_, rfl⟩
  · rw [List.getElem?_append_right (by rw [List.length_map]), List.length_map, Nat.sub_self]
    exact ⟨_, rfl⟩

theorem stringAt_realloc (h : stringAt b = some s) (hn : b.size ≤ n) : stringAt (b.realloc n) = some s := by
  obtain ⟨hnul, rest, hcells⟩ := scanString_eq_some_iff.1 h
  refine scanString_eq_some_iff.2 ⟨hnul, rest ++ List.replicate (n - b.size) none, ?_⟩
  rw [Block.realloc, List.take_of_length_le hn, hcells, List.append_assoc, List.cons_append]

/-! ## `strcat` -/

theorem storeAll_eq {front back : List (Option Char)} (hcells : b.cells = front ++ cells ++ back)
    (hlen : cells.length = s.length) : storeAll s front.length b = some ⟨front ++ s.map some ++ back⟩ := by
  induction s generalizing b front cells with
  | nil =>
      obtain rfl := List.length_eq_zero_iff.1 hlen
      exact congrArg some (Block.mk.injEq .. ▸ hcells)
  | cons c s ih =>
      obtain ⟨cell, cells, rfl⟩ := List.exists_cons_of_length_eq_add_one hlen
      have hin : front.length < b.size := by
        rw [Block.size, hcells]
        simp
      obtain ⟨b₁, hstore⟩ := Block.exists_store hin c
      have hcells₁ : b₁.cells = (front ++ [some c]) ++ cells ++ back := by
        rw [Block.store_eq hstore, hcells]
        simp
      have hrest := ih hcells₁ (Nat.succ.inj hlen)
      rw [List.length_append, List.length_singleton] at hrest
      rw [storeAll, hstore]
      refine hrest.trans ?_
      simp

theorem storeAll_none (hs : s ≠ []) (hover : b.size < i + s.length) : storeAll s i b = none := by
  induction s generalizing b i with
  | nil => exact absurd rfl hs
  | cons c s ih =>
      rw [storeAll]
      refine Option.bind_eq_none_iff.2 fun b₁ hstore => ?_
      have hi := Block.lt_size_of_store hstore
      rw [List.length_cons] at hover
      refine ih ?_ (by rw [Block.size_store hstore]; omega)
      rintro rfl
      rw [List.length_nil] at hover
      omega

/-- `strcat` needs room for both strings and one NUL. -/
theorem strcat_spec (h : stringAt b = some s) (hsrc : '\x00' ∉ src) :
    if s.length + src.length + 1 ≤ b.size then
      ∃ b', strcat b src = some b' ∧ b'.size = b.size ∧ stringAt b' = some (s ++ src)
    else strcat b src = none := by
  obtain ⟨hnul, rest, hcells⟩ := scanString_eq_some_iff.1 h
  have hsize : b.size = s.length + rest.length + 1 := by
    rw [Block.size, hcells, List.length_append, List.length_map, List.length_cons, Nat.add_assoc]
  rw [strcat, h]
  split
  · next hroom =>
      have hcut : b.cells = s.map some ++ (some '\x00' :: rest.take src.length) ++ rest.drop src.length := by
        rw [hcells, List.append_assoc, List.cons_append, List.take_append_drop]
      have hlen : (some '\x00' :: rest.take src.length).length = (src ++ ['\x00']).length := by
        rw [List.length_cons, List.length_take_of_le (by omega), List.length_append, List.length_singleton]
      have hstore := storeAll_eq hcut hlen
      rw [List.length_map] at hstore
      refine ⟨_, hstore, ?_, ?_⟩
      · rw [hsize]
        simp [Block.size]
        omega
      · refine scanString_eq_some_iff.2 ⟨?_, rest.drop src.length, ?_⟩
        · exact fun hmem => (List.mem_append.1 hmem).elim hnul hsrc
        · simp
  · next hover =>
      refine storeAll_none (by simp) ?_
      rw [List.length_append, List.length_singleton]
      omega

end CUtil
end Raiezau
