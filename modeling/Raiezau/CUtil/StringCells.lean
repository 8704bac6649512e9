import Raiezau.CUtil.String2
import Raiezau.CUtil.StringArray

/-!
# StringCells — the string helpers on the arrays the strings lie in

The functions of `String2` work on lists of characters.  Here they are again as they go about the cells of an array:
a pointer is an offset, a string is read from a pointer up to its NUL, the tokeniser writes a NUL behind each token,
and an access past either end fails.  Each is shown to agree with its counterpart on lists.
-/

namespace Raiezau
namespace CUtil
namespace Cells

open Memory

/-! ## Model -/

/-- What is read from a pointer on: by `strlen`, `strdup`, `strstr`, the comparisons and the conversions. -/
def stringFrom (b : Block Char) (ptr : Nat) : Option CString := scanString (b.cells.drop ptr)

/-- The array that holds a string and its NUL, and nothing else. -/
def newString (s : CString) : Block Char := ⟨s.map some ++ [some '\x00']⟩

def strdup (b : Block Char) (ptr : Nat) : Option (Block Char) := (stringFrom b ptr).map newString

def strndup (b : Block Char) (ptr n : Nat) : Option (Block Char) :=
  (stringFrom b ptr).map fun s => newString (s.take n)

/-- The last character of the string is looked at in `str[l - 1]`.  On the empty string `l - 1` wraps around, and the
address is the one in front of the array. -/
def lastIndex (l : Nat) : Option Nat := if l = 0 then none else some (l - 1)

def strstripc (str : Block Char) (c : Char) : Option (Block Char) := do
  let s ← stringFrom str 0
  let i ← lastIndex s.length
  let last ← str.load i
  if last = c then str.store i '\x00' else pure str

/-- `strtok_r`: the token, what `saveptr` then points at, and the array with the token closed. -/
def strtokR (str : Block Char) (saveptr : Nat) (delim : CString) : Option (Option (Nat × Nat × Block Char)) := do
  let s ← stringFrom str saveptr
  match s.dropWhile (fun c => delim.contains c) with
  | [] => pure none
  | t =>
      let token := saveptr + (s.length - t.length)
      let stop := token + (t.takeWhile fun c => !delim.contains c).length
      let c ← str.load stop
      if c = '\x00' then pure (some (token, stop, str))
      else do
        let str ← str.store stop '\x00'
        pure (some (token, stop + 1, str))

def stringSplitLoop (delim : CString) : Nat → Block Char → Nat → List (Block Char) → Option (List (Block Char))
  | 0, _, _, li => some li
  | n + 1, strw, saveptr, li => do
      match ← strtokR strw saveptr delim with
      | none => pure li
      | some (p, saveptr, strw) => do
          let part ← strdup strw p
          stringSplitLoop delim n strw saveptr (part :: li)

/-- The tokeniser runs on a copy. -/
def stringSplit (str : Block Char) (delim : CString) : Option (List (Block Char)) := do
  let s ← stringFrom str 0
  let strw ← strdup str 0
  let li ← stringSplitLoop delim (s.length + 1) strw 0 []
  pure li.reverse

def stringSplit2Loop (delim : CString) (str : Block Char) : Nat → Nat → List (Block Char) → Option (List (Block Char))
  | 0, ptr, li => (strdup str ptr).map (· :: li)
  | n + 1, ptr, li => do
      let s ← stringFrom str ptr
      match strstr s delim with
      | none => (strdup str ptr).map (· :: li)
      | some k => do
          let part ← strndup str ptr k
          stringSplit2Loop delim str n (ptr + k + delim.length) (part :: li)

def stringSplit2 (str : Block Char) (delim : CString) : Option (List (Block Char)) := do
  let s ← stringFrom str 0
  let li ← stringSplit2Loop delim str (s.length + 1) 0 []
  pure li.reverse

/-! ## Reading from a pointer -/

variable {b : Block Char} {s t w gap delim : CString} {ptr i n : Nat} {c : Char}

/-- The string from `ptr` on, as the cells in front of it and those it takes. -/
theorem stringFrom_eq_some_iff : stringFrom b ptr = some s ↔
    '\x00' ∉ s ∧ ∃ front rest, front.length = ptr ∧ b.cells = front ++ (s.map some ++ some '\x00' :: rest) := by
  rw [stringFrom, scanString_eq_some_iff]
  refine and_congr_right fun _ => ?_
  constructor
  · rintro ⟨rest, hcells⟩
    have hin : ptr < b.cells.length := by
      by_contra hout
      rw [List.drop_of_length_le (Nat.le_of_not_lt hout)] at hcells
      simpa using congrArg List.length hcells
    refine ⟨b.cells.take ptr, rest, List.length_take_of_le (Nat.le_of_lt hin), ?_⟩
    rw [← hcells, List.take_append_drop]
  · rintro ⟨front, rest, rfl, hcells⟩
    exact ⟨rest, by rw [hcells, List.drop_left]⟩

/-- From a place further on in a string its rest is read. -/
theorem stringFrom_append (h : stringFrom b ptr = some (s ++ t)) : stringFrom b (ptr + s.length) = some t := by
  obtain ⟨hnul, front, rest, hfront, hcells⟩ := stringFrom_eq_some_iff.1 h
  refine stringFrom_eq_some_iff.2 ⟨fun ht => hnul (List.mem_append_right s ht), front ++ s.map some, rest, ?_, ?_⟩
  · rw [List.length_append, List.length_map, hfront]
  · rw [hcells, List.map_append, List.append_assoc, List.append_assoc]

theorem stringFrom_drop (h : stringFrom b ptr = some s) (hi : i ≤ s.length) :
    stringFrom b (ptr + i) = some (s.drop i) := by
  rw [← List.take_append_drop i s] at h
  have hrest := stringFrom_append h
  rwa [List.length_take_of_le hi] at hrest

theorem load_append (h : stringFrom b ptr = some (s ++ c :: t)) : b.load (ptr + s.length) = some c := by
  obtain ⟨-, front, rest, rfl, hcells⟩ := stringFrom_eq_some_iff.1 h
  have hcells' : b.cells = (front ++ s.map some) ++ some c :: (t.map some ++ some '\x00' :: rest) := by
    rw [hcells]
    simp
  have hload := Block.load_eq_of_cells hcells'
  rwa [List.length_append, List.length_map] at hload

/-- The NUL can be read as well. -/
theorem load_length (h : stringFrom b ptr = some s) : b.load (ptr + s.length) = some '\x00' := by
  obtain ⟨-, front, rest, rfl, hcells⟩ := stringFrom_eq_some_iff.1 h
  rw [← List.append_assoc] at hcells
  have hload := Block.load_eq_of_cells hcells
  rwa [List.length_append, List.length_map] at hload

/-- A NUL written over a character leaves the string in front of it and the one behind it. -/
theorem exists_store_nul (h : stringFrom b ptr = some (gap ++ (w ++ c :: t))) :
    ∃ b', b.store (ptr + gap.length + w.length) '\x00' = some b' ∧
      stringFrom b' (ptr + gap.length) = some w ∧ stringFrom b' (ptr + gap.length + w.length + 1) = some t := by
  obtain ⟨hnul, front, rest, rfl, hcells⟩ := stringFrom_eq_some_iff.1 h
  have hw : '\x00' ∉ w := fun hmem => hnul (by simp [hmem])
  have ht : '\x00' ∉ t := fun hmem => hnul (by simp [hmem])
  let start := front ++ gap.map some
  have hstart : start.length = front.length + gap.length := by rw [List.length_append, List.length_map]
  have hcells' : b.cells = (start ++ w.map some) ++ some c :: (t.map some ++ some '\x00' :: rest) := by
    rw [hcells]
    simp [start]
  have hstore := Block.store_eq_of_cells hcells' '\x00'
  rw [List.length_append, List.length_map, hstart] at hstore
  refine ⟨_, hstore, ?_, ?_⟩
  · exact stringFrom_eq_some_iff.2 ⟨hw, start, _, hstart, List.append_assoc _ _ _⟩
  · refine stringFrom_eq_some_iff.2 ⟨ht, start ++ w.map some ++ [some '\x00'], rest, ?_, ?_⟩
    · rw [List.length_append, List.length_append, List.length_map, hstart]
      rfl
    · rw [List.append_assoc (start ++ w.map some)]
      rfl

theorem stringFrom_newString (hs : '\x00' ∉ s) : stringFrom (newString s) 0 = some s :=
  stringFrom_eq_some_iff.2 ⟨hs, [], [], rfl, rfl⟩

theorem not_nul_mem (h : stringFrom b ptr = some s) : '\x00' ∉ s := (stringFrom_eq_some_iff.1 h).1

theorem strdup_eq (h : stringFrom b ptr = some s) : strdup b ptr = some (newString s) := by
  rw [strdup, h]
  rfl

/-! ## `strstripc` -/

/-- What is left of the string; a fault on the empty one. -/
theorem strstripc_spec (h : stringFrom b 0 = some s) (c : Char) :
    (strstripc b c).bind (fun str => stringFrom str 0) = CUtil.strstripc s c := by
  rw [strstripc, CUtil.strstripc, h, Option.bind_eq_bind, Option.bind_some]
  rcases List.eq_nil_or_concat s with rfl | ⟨t, last, rfl⟩
  · rfl
  · rw [List.concat_eq_append] at h ⊢
    have hload := load_append h
    have hwhole : stringFrom b 0 = some ([] ++ (t ++ last :: [])) := h
    have hstore := exists_store_nul hwhole
    have hlen : lastIndex (t ++ [last]).length = some t.length := by
      rw [lastIndex, List.length_append, List.length_singleton, if_neg (Nat.succ_ne_zero _), Nat.add_sub_cancel]
    rw [Nat.zero_add] at hload
    simp only [List.length_nil, Nat.zero_add] at hstore
    obtain ⟨b', hstore, hfirst, -⟩ := hstore
    rw [hlen, List.getLast?_concat, List.dropLast_concat]
    simp only [Option.bind_eq_bind, Option.bind_some, hload]
    split
    · rw [hstore, Option.bind_some, hfirst]
    · exact h

/-! ## `string_split` -/

theorem length_sub_dropWhile (p : Char → Bool) (s : CString) :
    s.length - (s.dropWhile p).length = (s.takeWhile p).length := by
  have hlen := congrArg List.length (List.takeWhile_append_dropWhile (p := p) (l := s))
  rw [List.length_append] at hlen
  omega

/-- The tokeniser stays inside the string and closes the token it finds. -/
theorem strtokR_spec (h : stringFrom b ptr = some s) (delim : CString) :
    match CUtil.strtokR s delim with
    | none => strtokR b ptr delim = some none
    | some (w, rest) => ∃ p saveptr b', strtokR b ptr delim = some (some (p, saveptr, b')) ∧
        stringFrom b' p = some w ∧ stringFrom b' saveptr = some rest := by
  rw [CUtil.strtokR, strtokR, h, Option.bind_eq_bind, Option.bind_some]
  have hlen := length_sub_dropWhile (fun c => delim.contains c) s
  have hgap := List.takeWhile_append_dropWhile (p := fun c => delim.contains c) (l := s)
  cases ht : s.dropWhile (fun c => delim.contains c) with
  | nil => rfl
  | cons d t =>
      rw [ht] at hgap hlen
      simp only [hlen]
      have htoken := List.takeWhile_append_dropWhile (p := fun c => !delim.contains c) (l := d :: t)
      generalize (d :: t).takeWhile (fun c => !delim.contains c) = w at htoken ⊢
      rw [← hgap, ← htoken] at h
      cases hrest : (d :: t).dropWhile (fun c => !delim.contains c) with
      | nil =>
          rw [hrest, List.append_nil] at h
          have hw := stringFrom_append h
          have hload := load_length hw
          have hend := stringFrom_drop hw (Nat.le_refl _)
          rw [List.drop_length] at hend
          refine ⟨_, _, b, ?_, hw, hend⟩
          simp only [hload]
          rfl
      | cons e rest =>
          rw [hrest] at h
          have hload := load_append (stringFrom_append h)
          have hne : e ≠ '\x00' := by
            rintro rfl
            exact not_nul_mem h (by simp)
          obtain ⟨b', hstore, hw, hrest'⟩ := exists_store_nul h
          refine ⟨_, _, b', ?_, hw, hrest'⟩
          simp only [hload, hstore, Option.bind_eq_bind, Option.bind_some, if_neg hne]
          rfl

theorem stringSplitLoop_eq (h : stringFrom b ptr = some s) (li : List CString) :
    stringSplitLoop delim n b ptr (li.map newString) = some ((CUtil.stringSplitLoop delim n s li).map newString) := by
  induction n generalizing b ptr s li with
  | zero => rfl
  | succ n ih =>
      have hstep := strtokR_spec h delim
      rw [stringSplitLoop, CUtil.stringSplitLoop]
      cases htok : CUtil.strtokR s delim with
      | none =>
          rw [htok] at hstep
          rw [hstep]
          rfl
      | some p =>
          obtain ⟨w, rest⟩ := p
          rw [htok] at hstep
          obtain ⟨token, saveptr, b', heq, hw, hrest⟩ := hstep
          simp only [heq, Option.bind_eq_bind, Option.bind_some, strdup_eq hw]
          exact ih hrest (w :: li)

theorem stringSplit_eq (h : stringFrom b 0 = some s) (delim : CString) :
    stringSplit b delim = some ((CUtil.stringSplit s delim).map newString) := by
  have hcopy := stringFrom_newString (not_nul_mem h)
  have hloop : stringSplitLoop delim (s.length + 1) (newString s) 0 [] =
      some ((CUtil.stringSplitLoop delim (s.length + 1) s []).map newString) := stringSplitLoop_eq hcopy []
  simp only [stringSplit, h, strdup_eq h, hloop, Option.bind_eq_bind, Option.bind_some]
  rw [CUtil.stringSplit, List.map_reverse]
  rfl

/-! ## `string_split2` -/

theorem stringSplit2Loop_eq (h : stringFrom b ptr = some s) (li : List CString) :
    stringSplit2Loop delim b n ptr (li.map newString) = some ((CUtil.stringSplit2Loop delim n s li).map newString) := by
  induction n generalizing ptr s li with
  | zero =>
      rw [stringSplit2Loop, strdup_eq h]
      rfl
  | succ n ih =>
      rw [stringSplit2Loop, CUtil.stringSplit2Loop, h, Option.bind_eq_bind, Option.bind_some]
      cases hfind : strstr s delim with
      | none =>
          simp only [strdup_eq h]
          rfl
      | some k =>
          -- what is found ends inside the string
          have hnext := stringFrom_drop h (Text.findSub_le_length hfind)
          rw [← Nat.add_assoc] at hnext
          simp only [strndup, h, Option.map_some]
          exact ih hnext (s.take k :: li)

theorem stringSplit2_eq (h : stringFrom b 0 = some s) (delim : CString) :
    stringSplit2 b delim = some ((CUtil.stringSplit2 s delim).map newString) := by
  have hloop : stringSplit2Loop delim b (s.length + 1) 0 [] =
      some ((CUtil.stringSplit2Loop delim (s.length + 1) s []).map newString) := stringSplit2Loop_eq h []
  simp only [stringSplit2, h, hloop, Option.bind_eq_bind, Option.bind_some]
  rw [CUtil.stringSplit2, List.map_reverse]
  rfl

end Cells
end CUtil
end Raiezau
