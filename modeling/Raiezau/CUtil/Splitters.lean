import Raiezau.CUtil.ListCursor
import Raiezau.CUtil.String2
import Raiezau.Memory.Block

/-!
# Splitters — `string_split` and `string_split2` with the list and the array they work on

The parts are put in front of a list and copied from it, from its last place to its first, into an array.  The
loops are those of `cutil/string2.c`; each has as many rounds as its `fuel`, and no result where that does not do
or where an access is outside of its object.  `malloc` tells the address of each node in turn.

The number of parts is cut to an `unsigned int` and the length of the delimiter to an `int`.
-/

namespace Raiezau
namespace CUtil
namespace Splitters

open Memory Text

/-! ## Model -/

section

variable (malloc : Nat → Addr)

/-- `list_add` of a new node. -/
def push (li : CList CString) (p : CString) : Option (CList CString) := li.listAdd (malloc (li.size + 2)) (some p)

/-- The tokens, from where `saveptr` points. -/
def splitLoop (delim : CString) : Nat → CString → CList CString → Option (CList CString)
  | 0, _, _ => none
  | fuel + 1, saveptr, li =>
      match strtokR saveptr delim with
      | none => some li
      | some (p, saveptr) => do
          let li ← push malloc li p
          splitLoop delim fuel saveptr li

/-- The parts, from where `str_ptr1` points. -/
def split2Loop (str delim : CString) : Nat → Nat → CList CString → Option (CList CString)
  | 0, _, _ => none
  | fuel + 1, ptr, li =>
      match strstr (str.drop ptr) delim with
      | none => push malloc li (str.drop ptr)
      | some k => do
          let li ← push malloc li ((str.drop ptr).take k)
          -- `delim_length` is an `int`.
          let next : Int := ptr + k + toInt32 delim.length
          if 0 ≤ next ∧ next ≤ str.length then split2Loop str delim fuel next.toNat li else none

/-- `(*buf_addr)[s - i] = list_get(li, i)`, from `i` on; `i` is an `unsigned`. -/
def fillLoop (s : Nat) : Nat → Nat → CList CString → Block (Option CString) → Option (Block (Option CString))
  | 0, _, _, _ => none
  | fuel + 1, i, li, buf =>
      if i ≤ s then do
        let (x, li) ← li.listGet i
        let buf ← buf.store (s - i) x
        fillLoop s fuel (u32 (i + 1)) li buf
      else some buf

/-- The array of the parts; the number of its elements is what the splitters return. -/
def listToParts (fuel : Nat) (li : CList CString) : Option (List CString) :=
  let s := u32 li.size
  if s = 0 then some []
  else do
    let buf ← fillLoop s fuel 1 li (.alloc s)
    buf.cells.mapM Option.join

def newList : CList CString := .listNew (malloc 0) (malloc 1)

def stringSplit (fuel : Nat) (str : Option CString) (delim : CString) : Option (List CString) :=
  match str with
  | none => some []
  | some str => do
      let li ← splitLoop malloc delim fuel str (newList malloc)
      listToParts fuel li

def stringSplit2 (fuel : Nat) (str : Option CString) (delim : CString) : Option (List CString) :=
  match str with
  | none => some []
  | some str => do
      let li ← split2Loop malloc str delim fuel 0 (newList malloc)
      listToParts fuel li

/-! ## What the splitters are for -/

/-- `string_split2` inverts joining. -/
def InvertsJoining (str delim : CString) : Prop :=
  ∃ fuel parts, stringSplit2 malloc fuel (some str) delim = some parts ∧ 1 ≤ parts.length ∧
    delim.intercalate parts = str ∧ (∀ p ∈ parts, ¬ delim <:+: p) ∧ parts.length - 1 = countSub delim str

/-- `string_split` returns the runs of characters that are no delimiters. -/
def ReturnsRuns (str delim : CString) : Prop :=
  ∃ fuel, stringSplit malloc fuel (some str) delim = some (words (fun c => delim.contains c) str)

end

/-- No length and no number of parts is cut. -/
def Fits (str delim : CString) : Prop :=
  (delim <:+: str → delim.length < 2 ^ 31) ∧ countSub delim str + 1 < 2 ^ 32 - 1

variable {malloc : Nat → Addr} {li li' : CList CString} {xs : List CString} {str delim p q : CString}
  {fuel ptr s i : Nat}

/-! ## The list of the parts -/

/-- The list has the elements, its cursor has not moved, and the addresses of the nodes to come are free. -/
structure Collected (malloc : Nat → Addr) (li : CList CString) (xs : List CString) : Prop where
  represents : ∃ nodes, li.Represents (malloc 1) nodes (xs.map some)
  front_eq : li.frontSentinel = malloc 0
  curpos_eq : li.curpos = 0
  free : ∀ n, li.size + 2 ≤ n → li.heap (malloc n) = none

theorem Collected.size_eq (h : Collected malloc li xs) : li.size = xs.length := by
  obtain ⟨nodes, hrep⟩ := h.represents
  rw [hrep.length_xs, List.length_map]

theorem collected_new (hm : Function.Injective malloc) : Collected malloc (newList malloc) [] where
  represents := ⟨[], CList.represents_new fun heq => absurd (hm heq) Nat.zero_ne_one⟩
  front_eq := rfl
  curpos_eq := rfl
  free := fun n hn => by
    have hfront : malloc n ≠ malloc 0 := fun heq => absurd (hm heq) (by omega)
    have hback : malloc n ≠ malloc 1 := fun heq => absurd (hm heq) (by omega)
    exact (Function.update_of_ne hfront _ _).trans (Function.update_of_ne hback _ _)

theorem Collected.push (h : Collected malloc li xs) (hm : Function.Injective malloc) (p : CString) :
    ∃ li', push malloc li p = some li' ∧ Collected malloc li' (p :: xs) := by
  obtain ⟨nodes, hrep⟩ := h.represents
  have hfresh : li.heap (malloc (li.size + 2)) = none := h.free _ (Nat.le_refl _)
  have hroom : li.curpos ≠ 2 ^ 32 - 1 := by
    rw [h.curpos_eq]
    decide
  obtain ⟨li', hadd, hrep'⟩ := hrep.listAdd (x := some p) hfresh hroom
  obtain ⟨li'', hadd', -, hsize, hfront, -, hcurpos⟩ := hrep.toChained.listAdd (x := some p) hfresh
  obtain rfl := Option.some.inj (hadd.symm.trans hadd')
  refine ⟨li', hadd, ⟨_, hrep'⟩, hfront.trans h.front_eq, ?_, fun n hn => ?_⟩
  · rw [hcurpos, h.curpos_eq]
    rfl
  · rw [hsize] at hn
    have hnew : malloc n ≠ malloc (li.size + 2) := fun heq => absurd (hm heq) (by omega)
    have hsentinel : malloc n ≠ li.frontSentinel := by
      rw [h.front_eq]
      exact fun heq => absurd (hm heq) (by omega)
    rw [CList.listAdd_heap hadd hnew hsentinel]
    exact h.free n (by omega)

theorem nodeSetNext_size {a b : Addr} (h : li.nodeSetNext a b = some li') : li'.size = li.size := by
  obtain ⟨node, -, rfl⟩ := Option.map_eq_some_iff.1 h
  rfl

theorem push_size (h : push malloc li p = some li') : li'.size = li.size + 1 := by
  simp only [push, CList.listAdd, CList.insertBehind, Option.bind_eq_bind, Option.bind_eq_some_iff] at h
  obtain ⟨li₁, ⟨next, -, li₂, hset, li₃, hset', hli₁⟩, hli'⟩ := h
  obtain rfl := Option.some.inj hli₁
  obtain rfl := Option.some.inj hli'
  have hsize : li₂.size = (li.nodeNew _ _).size := nodeSetNext_size hset
  exact congrArg (· + 1) ((nodeSetNext_size hset').trans hsize)

/-! ## The array -/

/-- Strings that were all written. -/
theorem mapM_join (parts : List CString) : (parts.map fun p => some (some p)).mapM Option.join = some parts := by
  induction parts with
  | nil => rfl
  | cons p parts ih => rw [List.map_cons, List.mapM_cons, ih]; rfl

theorem length_mapM_join {cells : List (Option (Option CString))} {parts : List CString}
    (h : cells.mapM Option.join = some parts) : parts.length = cells.length := by
  induction cells generalizing parts with
  | nil => cases h; rfl
  | cons c cells ih =>
      rw [List.mapM_cons, Option.bind_eq_bind, Option.bind_eq_some_iff] at h
      obtain ⟨p, -, h⟩ := h
      obtain ⟨rest, hrest, h⟩ := Option.bind_eq_some_iff.1 h
      cases h
      exact congrArg (· + 1) (ih hrest)

variable {buf buf' : Block (Option CString)}

theorem cells_eq {parts : List CString} (hsize : buf.size = parts.length)
    (hload : ∀ j, j < buf.size → buf.load j = parts[j]?.map some) :
    buf.cells = parts.map fun p => some (some p) := by
  refine List.ext_getElem? fun j => ?_
  rw [List.getElem?_map]
  by_cases hj : j < buf.size
  · have hp : parts[j]? = some parts[j] := List.getElem?_eq_getElem (hsize ▸ hj)
    have hj' := hload j hj
    rw [hp, Option.map_some] at hj' ⊢
    exact Option.join_eq_some_iff.1 hj'
  · have hj' := Nat.le_of_not_lt hj
    rw [List.getElem?_eq_none hj', List.getElem?_eq_none (hsize ▸ hj'), Option.map_none]

/-- The loop fills the array from its end; the list is looked at from its front. -/
theorem fillLoop_spec {back : Addr} {nodes : List Addr} (h : li.Represents back nodes (xs.map some))
    (hs : s ≤ xs.length) (hlt : s + 1 < 2 ^ 32) (hi : 1 ≤ i) (his : i ≤ s + 1) (hsize : buf.size = s)
    (hfilled : ∀ k, 1 ≤ k → k < i → buf.load (s - k) = xs[k - 1]?.map some) (hfuel : s + 1 - i < fuel) :
    ∃ buf', fillLoop s fuel i li buf = some buf' ∧ buf'.size = s ∧
      ∀ k, 1 ≤ k → k ≤ s → buf'.load (s - k) = xs[k - 1]?.map some := by
  -- Round `i` takes element `i` of the list to the `i`th place from the end.
  induction fuel generalizing i li buf with
  | zero => exact absurd hfuel (Nat.not_lt_zero _)
  | succ fuel ih =>
      rw [fillLoop]
      by_cases hle : i ≤ s
      · have hlen : nodes.length = xs.length := by rw [h.length_eq, List.length_map]
        obtain ⟨d, li', hget, h', hd⟩ := h.listGet hi (by omega) (by omega)
        rw [List.getElem?_map] at hd
        have hin : s - i < buf.size := by omega
        obtain ⟨buf₁, hstore⟩ := Block.exists_store hin d
        have hsize₁ := (Block.size_store hstore).trans hsize
        have hnext : u32 (i + 1) = i + 1 := Nat.mod_eq_of_lt (by omega)
        obtain ⟨buf', hloop, hspec⟩ := ih h' (Nat.le_add_left 1 i) (by omega) hsize₁ (fun k hk hki => by
          by_cases hki' : k = i
          · rw [hki', Block.load_store_self hstore, hd]
          · rw [Block.load_store_of_ne hstore (by omega)]
            exact hfilled k hk (by omega)) (by omega)
        refine ⟨buf', ?_, hspec⟩
        rw [if_pos hle, hget]
        simp only [Option.bind_eq_bind, Option.bind_some, hstore, hnext]
        exact hloop
      · exact ⟨buf, if_neg hle, hsize, fun k hk hks => hfilled k hk (by omega)⟩

/-- The parts of the list, as many as an `unsigned int` says there are, in the other order. -/
theorem Collected.listToParts (h : Collected malloc li xs) (hs : u32 xs.length = s) (hlt : s + 1 < 2 ^ 32)
    (hfuel : s < fuel) : listToParts fuel li = some (xs.take s).reverse := by
  obtain ⟨nodes, hrep⟩ := h.represents
  have hle : s ≤ xs.length := hs ▸ Nat.mod_le _ _
  rw [Splitters.listToParts, h.size_eq, hs]
  by_cases hzero : s = 0
  · rw [if_pos hzero, hzero]
    rfl
  obtain ⟨buf, hloop, hsize, hload⟩ := fillLoop_spec hrep hle hlt (Nat.le_refl 1) (by omega) Block.size_alloc
    (fun k hk hk' => absurd hk' (by omega)) (show s + 1 - 1 < fuel from hfuel)
  have htake : (xs.take s).length = s := List.length_take_of_le hle
  have hlen : (xs.take s).reverse.length = s := List.length_reverse.trans htake
  have hcells := cells_eq (hsize.trans hlen.symm) fun j hj => by
    have hk := hload (s - j) (by omega) (Nat.sub_le s j)
    rw [show s - (s - j) = j by omega] at hk
    rw [hk, List.getElem?_reverse (by omega), htake, List.getElem?_take_of_lt (by omega)]
    congr 2
    omega
  rw [if_neg hzero, hloop]
  simp only [Option.bind_eq_bind, Option.bind_some]
  rw [hcells]
  exact mapM_join _

theorem fillLoop_size (h : fillLoop s fuel i li buf = some buf') : buf'.size = buf.size := by
  induction fuel generalizing i li buf with
  | zero => cases h
  | succ fuel ih =>
      rw [fillLoop] at h
      split at h
      · obtain ⟨⟨x, li'⟩, -, h⟩ := Option.bind_eq_some_iff.1 h
        obtain ⟨buf₁, hstore, h⟩ := Option.bind_eq_some_iff.1 h
        exact (ih h).trans (Block.size_store hstore)
      · cases h
        rfl

/-- Every `unsigned` is at most the largest: the index wraps, and the store is outside. -/
theorem fillLoop_full (hs : s = 2 ^ 32 - 1) (hi : i < 2 ^ 32) (hsize : buf.size = s) :
    fillLoop s fuel i li buf = none := by
  induction fuel generalizing i li buf with
  | zero => rfl
  | succ fuel ih =>
      rw [fillLoop, if_pos (by omega), Option.bind_eq_bind, Option.bind_eq_none_iff]
      rintro ⟨x, li'⟩ -
      refine Option.bind_eq_none_iff.2 fun buf₁ hstore => ?_
      exact ih (Nat.mod_lt _ (Nat.two_pow_pos 32)) ((Block.size_store hstore).trans hsize)

theorem length_listToParts {parts : List CString} (h : listToParts fuel li = some parts) :
    parts.length = u32 li.size ∧ u32 li.size ≠ 2 ^ 32 - 1 := by
  rw [listToParts] at h
  split at h
  · next hzero =>
      cases h
      exact ⟨hzero.symm, by rw [hzero]; decide⟩
  · obtain ⟨buf, hloop, h⟩ := Option.bind_eq_some_iff.1 h
    refine ⟨?_, fun hfull => ?_⟩
    · rw [length_mapM_join h]
      exact (fillLoop_size hloop).trans Block.size_alloc
    · rw [fillLoop_full hfull (by decide) Block.size_alloc] at hloop
      cases hloop

/-! ## `string_split` -/

theorem strtokR_lt (h : strtokR str delim = some (p, q)) : q.length < str.length := by
  have hle := List.length_dropWhile_le (fun c => delim.contains c) str
  rw [strtokR] at h
  cases hd : str.dropWhile (fun c => delim.contains c) with
  | nil => rw [hd] at h; cases h
  | cons c t =>
      rw [hd] at h hle
      obtain ⟨-, rfl⟩ := Prod.mk.inj (Option.some.inj h)
      have hc : delim.contains c = false := @not_sep_of_dropWhile _ (fun c => delim.contains c) _ _ _ hd
      have hrest := List.length_dropWhile_le (fun c => !delim.contains c) t
      rw [List.dropWhile_cons_of_pos (by simpa using hc), List.length_tail]
      rw [List.length_cons] at hle
      omega

theorem words_strtokR (str delim : CString) :
    words (fun c => delim.contains c) str =
      match strtokR str delim with
      | none => []
      | some (p, q) => p :: words (fun c => delim.contains c) q := by
  rw [words_step, strtokR]
  cases str.dropWhile (fun c => delim.contains c) <;> rfl

theorem Collected.splitLoop (h : Collected malloc li xs) (hm : Function.Injective malloc)
    (hfuel : str.length < fuel) : ∃ li', splitLoop malloc delim fuel str li = some li' ∧
      Collected malloc li' ((words (fun c => delim.contains c) str).reverse ++ xs) := by
  -- Every round takes a token off the string, so its length bounds the rounds.
  induction fuel generalizing str li xs with
  | zero => exact absurd hfuel (Nat.not_lt_zero _)
  | succ fuel ih =>
      rw [Splitters.splitLoop, words_strtokR]
      cases htok : strtokR str delim with
      | none => exact ⟨li, rfl, h⟩
      | some t =>
          obtain ⟨p, q⟩ := t
          obtain ⟨li₁, hpush, h₁⟩ := h.push hm p
          have hshort := strtokR_lt htok
          obtain ⟨li', hloop, h'⟩ := ih h₁ (show q.length < fuel by omega)
          refine ⟨li', ?_, by simpa using h'⟩
          simp only [hpush, Option.bind_eq_bind, Option.bind_some]
          exact hloop

/-- However many rounds there are, the list has all tokens. -/
theorem splitLoop_size (h : splitLoop malloc delim fuel str li = some li') :
    li'.size = li.size + (words (fun c => delim.contains c) str).length := by
  induction fuel generalizing str li with
  | zero => cases h
  | succ fuel ih =>
      rw [splitLoop] at h
      rw [words_strtokR]
      cases htok : strtokR str delim with
      | none => rw [htok] at h; cases h; rfl
      | some t =>
          obtain ⟨p, q⟩ := t
          rw [htok] at h
          obtain ⟨li₁, hpush, h⟩ := Option.bind_eq_some_iff.1 h
          rw [ih h, push_size hpush]
          dsimp only
          rw [List.length_cons]
          omega

theorem stringSplit_of_fits (hm : Function.Injective malloc)
    (hfits : (words (fun c => delim.contains c) str).length < 2 ^ 32 - 1) :
    ∃ fuel, stringSplit malloc fuel (some str) delim = some (CUtil.stringSplit str delim) := by
  obtain ⟨fuel, hstr, hparts⟩ : ∃ fuel, str.length < fuel ∧
      (words (fun c => delim.contains c) str).length < fuel :=
    ⟨str.length + (words (fun c => delim.contains c) str).length + 1, by omega, by omega⟩
  obtain ⟨li, hloop, hli⟩ : ∃ li, splitLoop malloc delim fuel str (newList malloc) = some li ∧
      Collected malloc li ((words (fun c => delim.contains c) str).reverse ++ []) :=
    (collected_new hm).splitLoop hm hstr
  rw [List.append_nil] at hli
  have hcount : u32 (words (fun c => delim.contains c) str).reverse.length =
      (words (fun c => delim.contains c) str).length := by
    rw [List.length_reverse]
    exact Nat.mod_eq_of_lt (by omega)
  refine ⟨fuel, ?_⟩
  rw [stringSplit_eq_words, stringSplit, hloop]
  dsimp only [Option.bind_eq_bind, Option.bind_some]
  rw [hli.listToParts hcount (by omega) hparts, ← List.length_reverse, List.take_length, List.reverse_reverse]

theorem returnsRuns_iff (hm : Function.Injective malloc) :
    ReturnsRuns malloc str delim ↔ (words (fun c => delim.contains c) str).length < 2 ^ 32 - 1 := by
  constructor
  · rintro ⟨fuel, hsplit⟩
    obtain ⟨li, hloop, hparts⟩ := Option.bind_eq_some_iff.1 hsplit
    have hsize := splitLoop_size hloop
    rw [show (newList malloc).size = 0 from rfl, Nat.zero_add] at hsize
    obtain ⟨hlen, hne⟩ := length_listToParts hparts
    have hlt : u32 li.size < 2 ^ 32 := Nat.mod_lt _ (Nat.two_pow_pos 32)
    omega
  · intro hfits
    obtain ⟨fuel, hsplit⟩ := stringSplit_of_fits hm hfits
    exact ⟨fuel, hsplit.trans (congrArg some (stringSplit_eq_words str delim))⟩

/-! ## `string_split2` -/

/-- The delimiter is not found, or its length is an `int`. -/
def IntLength (str delim : CString) : Prop := delim <:+: str → delim.length < 2 ^ 31

theorem infix_of_findSub {k : Nat} (hf : findSub delim str = some k) : delim <:+: str := by
  by_contra hnone
  rw [findSub_eq_none_iff.2 hnone] at hf
  cases hf

/-- One round: the next part starts behind the occurrence. -/
theorem split2Loop_succ (hd : delim ≠ []) (hint : IntLength str delim) (fuel ptr : Nat) (li : CList CString) :
    split2Loop malloc str delim (fuel + 1) ptr li =
      match findSub delim (str.drop ptr) with
      | none => push malloc li (str.drop ptr)
      | some k => (push malloc li ((str.drop ptr).take k)).bind fun li =>
          split2Loop malloc str delim fuel (ptr + (k + delim.length)) li := by
  rw [split2Loop, strstr]
  cases hf : findSub delim (str.drop ptr) with
  | none => rfl
  | some k =>
      have hpos : 0 < delim.length := List.length_pos_iff.2 hd
      have hle := findSub_le_length hf
      rw [List.length_drop] at hle
      have hlt := hint ((infix_of_findSub hf).trans (List.drop_suffix ptr str).isInfix)
      have hnext : (ptr : Int) + k + toInt32 delim.length = ((ptr + (k + delim.length) : Nat) : Int) := by
        rw [toInt32_of_lt hlt]
        omega
      have hin : (0 : Int) ≤ (ptr + (k + delim.length) : Nat) ∧
          ((ptr + (k + delim.length) : Nat) : Int) ≤ str.length := by omega
      simp only [hnext, Int.toNat_natCast, Option.bind_eq_bind, if_pos hin]

theorem Collected.split2Loop (h : Collected malloc li xs) (hm : Function.Injective malloc) (hd : delim ≠ [])
    (hint : IntLength str delim) (hfuel : (str.drop ptr).length < fuel) :
    ∃ li', split2Loop malloc str delim fuel ptr li = some li' ∧
      Collected malloc li' ((splitSub delim (str.drop ptr)).reverse ++ xs) := by
  -- Every round starts further on by the delimiter at least.
  induction fuel generalizing ptr li xs with
  | zero => exact absurd hfuel (Nat.not_lt_zero _)
  | succ fuel ih =>
      rw [split2Loop_succ hd hint, splitSub_eq hd]
      cases hf : findSub delim (str.drop ptr) with
      | none => exact h.push hm (str.drop ptr)
      | some k =>
          have hpos : 0 < delim.length := List.length_pos_iff.2 hd
          have hle := findSub_le_length hf
          obtain ⟨li₁, hpush, h₁⟩ := h.push hm ((str.drop ptr).take k)
          have hshort : (str.drop (ptr + (k + delim.length))).length < fuel := by
            rw [List.length_drop] at hle hfuel ⊢
            omega
          obtain ⟨li', hloop, h'⟩ := ih h₁ hshort
          refine ⟨li', ?_, ?_⟩
          · dsimp only
            rw [hpush]
            exact hloop
          · dsimp only
            rw [List.drop_drop]
            simpa using h'

/-- However many rounds there are, the list has all parts. -/
theorem split2Loop_size (hd : delim ≠ []) (hint : IntLength str delim)
    (h : split2Loop malloc str delim fuel ptr li = some li') :
    li'.size = li.size + (splitSub delim (str.drop ptr)).length := by
  induction fuel generalizing ptr li with
  | zero => cases h
  | succ fuel ih =>
      rw [split2Loop_succ hd hint] at h
      rw [splitSub_eq hd]
      cases hf : findSub delim (str.drop ptr) with
      | none =>
          rw [hf] at h
          exact push_size h
      | some k =>
          rw [hf] at h
          obtain ⟨li₁, hpush, h⟩ := Option.bind_eq_some_iff.1 h
          rw [ih h, push_size hpush, ← List.drop_drop]
          dsimp only
          rw [List.length_cons]
          omega

/-- A length that `int` makes negative, or zero: the loop comes back to the same occurrence, or leaves the string. -/
theorem split2Loop_stuck {k : Nat} (hf : findSub delim str = some k) (hneg : toInt32 delim.length ≤ 0)
    (hptr : ptr ≤ k) : split2Loop malloc str delim fuel ptr li = none := by
  induction fuel generalizing ptr li with
  | zero => rfl
  | succ fuel ih =>
      rw [split2Loop, strstr, findSub_drop hf hptr]
      refine Option.bind_eq_none_iff.2 fun li₁ _ => ?_
      dsimp only
      split
      · next hin =>
          refine ih ?_
          omega
      · rfl

theorem stringSplit2_of_fits (hm : Function.Injective malloc) (hd : delim ≠ []) (hfits : Fits str delim) :
    ∃ fuel, stringSplit2 malloc fuel (some str) delim = some (CUtil.stringSplit2 str delim) := by
  have hlen := length_splitSub hd str
  have hlt := hfits.2
  obtain ⟨fuel, hstr, hparts⟩ : ∃ fuel, str.length < fuel ∧ (splitSub delim str).length < fuel :=
    ⟨str.length + (splitSub delim str).length + 1, by omega, by omega⟩
  have hroom : (str.drop 0).length < fuel := hstr
  obtain ⟨li, hloop, hli⟩ := (collected_new hm).split2Loop hm hd hfits.1 hroom
  rw [List.append_nil, List.drop_zero] at hli
  have hcount : u32 (splitSub delim str).reverse.length = (splitSub delim str).length := by
    rw [List.length_reverse]
    exact Nat.mod_eq_of_lt (by omega)
  refine ⟨fuel, ?_⟩
  rw [stringSplit2_eq_splitSub, stringSplit2, hloop]
  dsimp only [Option.bind_eq_bind, Option.bind_some]
  rw [hli.listToParts hcount (by omega) hparts, ← List.length_reverse, List.take_length, List.reverse_reverse]

theorem invertsJoining_of_fits (hm : Function.Injective malloc) (hd : delim ≠ []) (hfits : Fits str delim) :
    InvertsJoining malloc str delim := by
  obtain ⟨fuel, hsplit⟩ := stringSplit2_of_fits hm hd hfits
  rw [stringSplit2_eq_splitSub] at hsplit
  have hlen := length_splitSub hd str
  exact ⟨fuel, _, hsplit, by omega, intercalate_splitSub hd str, fun p hp => not_infix_of_mem_splitSub hd hp,
    by omega⟩

/-- Where the length of the delimiter does not wrap to a positive one, nothing else inverts joining. -/
theorem fits_of_invertsJoining (hd : delim ≠ []) (hlen : delim.length ≤ 2 ^ 32 ∨ ¬ delim <:+: str)
    (h : InvertsJoining malloc str delim) : Fits str delim := by
  obtain ⟨fuel, parts, hsplit, hpos, -, -, hcount⟩ := h
  obtain ⟨li, hloop, hparts⟩ := Option.bind_eq_some_iff.1 hsplit
  have hint : IntLength str delim := fun hin => by
    by_contra hlong
    obtain ⟨k, hf⟩ : ∃ k, findSub delim str = some k := by
      refine Option.ne_none_iff_exists'.1 fun hnone => ?_
      exact findSub_eq_none_iff.1 hnone hin
    have hneg : toInt32 delim.length ≤ 0 := by
      have hle := hlen.resolve_right (not_not_intro hin)
      rw [toInt32_of_wrap (by omega) (by omega)]
      omega
    rw [split2Loop_stuck hf hneg (Nat.zero_le k)] at hloop
    cases hloop
  have hsize := split2Loop_size hd hint hloop
  rw [List.drop_zero, length_splitSub hd, show (newList malloc).size = 0 from rfl, Nat.zero_add] at hsize
  obtain ⟨hlen', hne⟩ := length_listToParts hparts
  have hlt : u32 li.size < 2 ^ 32 := Nat.mod_lt _ (Nat.two_pow_pos 32)
  exact ⟨hint, by omega⟩

/-! ## Both splitters -/

/-- The splitters do what they are for as long as no length and no number of parts is cut; only a delimiter of
more than `2 ^ 32` characters, whose length wraps to a positive one, may still come out right where both are. -/
theorem splitters_iff (hm : Function.Injective malloc) (hd : delim ≠ []) (delims : CString) :
    (Fits str delim → InvertsJoining malloc str delim) ∧
      (InvertsJoining malloc str delim → Fits str delim ∨ (delim <:+: str ∧ 2 ^ 32 < delim.length)) ∧
      (ReturnsRuns malloc str delims ↔ (words (fun c => delims.contains c) str).length < 2 ^ 32 - 1) := by
  refine ⟨invertsJoining_of_fits hm hd, fun h => ?_, returnsRuns_iff hm⟩
  by_cases hlong : delim <:+: str ∧ 2 ^ 32 < delim.length
  · exact .inr hlong
  · refine .inl (fits_of_invertsJoining hd ?_ h)
    by_cases hin : delim <:+: str
    · exact .inl (Nat.le_of_not_lt fun hlt => hlong ⟨hin, hlt⟩)
    · exact .inr hin

theorem splitters_iff_commas : InvertsJoining id ",a,,b".toList [','] ∧ ReturnsRuns id ",a,,b".toList [',', 'b'] := by
  have hfits : Fits ",a,,b".toList [','] := ⟨fun _ => by decide, by decide⟩
  obtain ⟨hinverts, -, hruns⟩ :=
    @splitters_iff id ",a,,b".toList [','] Function.injective_id (List.cons_ne_nil ',' []) [',', 'b']
  exact ⟨hinverts hfits, hruns.2 (by decide)⟩

theorem countSub_replicate (c : Char) (n : Nat) : countSub [c] (List.replicate n c) = n := by
  induction n with
  | zero => rfl
  | succ n ih =>
      have hpre : [c] <+: c :: List.replicate n c := List.cons_prefix_cons.2 ⟨rfl, List.nil_prefix⟩
      rw [List.replicate_succ, countSub, countSubAux, if_pos hpre]
      exact congrArg (· + 1) ih

/-- As many parts as the largest `unsigned`: the copying loop does not end in the array. -/
theorem not_invertsJoining : ¬ InvertsJoining id (List.replicate (2 ^ 32 - 2) ',') [','] := by
  intro h
  have hfits := fits_of_invertsJoining (List.cons_ne_nil _ _) (.inl (by decide)) h
  have hcount := hfits.2
  rw [countSub_replicate] at hcount
  omega

end Splitters
end CUtil
end Raiezau
