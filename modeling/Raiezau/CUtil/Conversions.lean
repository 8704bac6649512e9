import Mathlib.Data.Multiset.ZeroCons
import Raiezau.CUtil.HashTable
import Raiezau.CUtil.Lookups
import Raiezau.Memory.Block

/-!
# Conversions — the loops of `cutil/list.c` over a whole list

A list is numbered from 1; at position 0 `list_get` gives what the front sentinel holds.  The loops of
`list_append_list`, `list_map_r` and `list_each_r` count from 1 up to the size, those of `list_to_array` and
`list_to_hashtable` from 0 to below it: they take the sentinel's NULL first and leave the last element out.  The
counters are of 32 bits, and the size is not: a loop whose counter wraps never ends.

The list that a loop builds shares no node with the one it reads, so each has a memory of its own here.
-/

namespace Raiezau
namespace CUtil

open Memory Machine

variable {D E A σ : Type}

/-! ## Model -/

/-- The head of a loop over positions: the first position, the condition on the size and a position, and what
`++i` makes of a position. -/
structure LoopHead where
  first : Nat
  more : Nat → Nat → Bool
  next : Nat → Option Nat

namespace LoopHead

/-- `for (unsigned int i = 1; i <= size; ++i)`. -/
def upToSize : LoopHead where
  first := 1
  more size i := i ≤ size
  next i := some (u32 (i + 1))

/-- `for (unsigned i = 0; i < size; ++i)`. -/
def belowSize : LoopHead where
  first := 0
  more size i := i < size
  next i := some (u32 (i + 1))

/-- `for (int i = 1; i <= si; ++i)`: past the largest `int` there is no next position. -/
def upToInt (si : Int) : LoopHead where
  first := 1
  more _ i := i ≤ si
  next i := if i + 1 < 2 ^ 31 then some (i + 1) else none

end LoopHead

namespace CList

/-- A loop from position `i` on, with a unit of fuel for each test of the condition. -/
def loopFrom (head : LoopHead) (body : σ → Nat → Option D → Option σ) :
    Nat → Nat → CList D → σ → Option (σ × CList D)
  | 0, _, _, _ => none
  | fuel + 1, i, l, st =>
      if head.more l.size i then do
        let (data, l) ← l.listGet i
        let st ← body st i data
        let i ← head.next i
        loopFrom head body fuel i l st
      else some (st, l)

def forLoop (head : LoopHead) (body : σ → Nat → Option D → Option σ) (fuel : Nat) (l : CList D) (st : σ) :
    Option (σ × CList D) :=
  loopFrom head body fuel head.first l st

/-- `list_append` to a list, at the first of the addresses that `malloc` has still to return. -/
def appendNext (st : CList E × List Addr) (element : Option E) : Option (CList E × List Addr) :=
  match st with
  | (_, []) => none
  | (l, a :: addrs) => do
      let l ← l.listAppend a element
      some (l, addrs)

def listAppendList (fuel : Nat) (addrs : List Addr) (l1 l2 : CList D) :
    Option ((CList D × List Addr) × CList D) :=
  forLoop .upToSize (fun st _ data => appendNext st data) fuel l2 (l1, addrs)

def listCopy (front back : Addr) (addrs : List Addr) (l : CList D) (fuel : Nat) :
    Option ((CList D × List Addr) × CList D) :=
  listAppendList fuel addrs (listNew front back) l

def listToArray (l : CList D) (fuel : Nat) : Option (Block (Option D) × CList D) :=
  forLoop .belowSize (fun array i data => array.store i data) fuel l (.alloc l.size)

/-- `element_keyname` has no result where it follows a null pointer. -/
def listToHashtable (elementKeyname : Option D → Option CString) (l : CList D) (fuel : Nat) :
    Option (HashTable (Option D) × CList D) :=
  forLoop .belowSize
    (fun ht _ el => do
      let key ← elementKeyname el
      some (htAddEntry ht key el))
    fuel l htCreate

def listMapR (fn : Option D → A → Option E) (args : A) (front back : Addr) (addrs : List Addr) (l : CList D)
    (fuel : Nat) : Option ((CList E × List Addr) × CList D) :=
  let si := toInt32 l.size
  forLoop (.upToInt si) (fun st _ data => appendNext st (fn data args)) fuel l (listNew front back, addrs)

/-- The calls of `fn` change a state of the caller's. -/
def listEachR (fn : Option D → A → σ → σ) (args : A) (st : σ) (l : CList D) (fuel : Nat) : Option (σ × CList D) :=
  let si := toInt32 l.size
  forLoop (.upToInt si) (fun st _ data => some (fn data args st)) fuel l st

end CList

/-! ## Loop heads -/

/-- The loop passes `k` positions, one after the other, and ends. -/
def LoopHead.Passes (head : LoopHead) (size : Nat) : Nat → Nat → Prop
  | i, 0 => head.more size i = false
  | i, k + 1 => head.more size i = true ∧ head.next i = some (i + 1) ∧ head.Passes size (i + 1) k

/-- The loop stays at positions where its condition holds. -/
structure LoopHead.Endless (head : LoopHead) (size : Nat) (P : Nat → Prop) : Prop where
  first : P head.first
  more : ∀ i, P i → head.more size i = true
  next : ∀ i j, P i → head.next i = some j → P j

namespace LoopHead

variable {size i k : Nat} {si : Int}

theorem passes_upToSize (hsize : size < 2 ^ 32 - 1) (hik : i + k = size + 1) : upToSize.Passes size i k := by
  induction k generalizing i with
  | zero => exact decide_eq_false (by omega)
  | succ k ih =>
      refine ⟨decide_eq_true (by omega), ?_, ih (by omega)⟩
      exact congrArg some (Nat.mod_eq_of_lt (by omega))

theorem endless_upToSize (hsize : 2 ^ 32 - 1 ≤ size) : upToSize.Endless size fun i => i < 2 ^ 32 where
  first := by decide
  more i hi := decide_eq_true (by omega)
  next i j _ hj := by
    obtain rfl := Option.some.inj hj
    exact Nat.mod_lt _ (Nat.two_pow_pos 32)

theorem passes_belowSize (hsize : size < 2 ^ 32) (hik : i + k = size) : belowSize.Passes size i k := by
  induction k generalizing i with
  | zero => exact decide_eq_false (by omega)
  | succ k ih =>
      refine ⟨decide_eq_true (by omega), ?_, ih (by omega)⟩
      exact congrArg some (Nat.mod_eq_of_lt (by omega))

theorem endless_belowSize (hsize : 2 ^ 32 ≤ size) : belowSize.Endless size fun i => i < 2 ^ 32 where
  first := by decide
  more i hi := decide_eq_true (by omega)
  next i j _ hj := by
    obtain rfl := Option.some.inj hj
    exact Nat.mod_lt _ (Nat.two_pow_pos 32)

theorem passes_upToInt (hsi : si < 2 ^ 31 - 1) (hik : i + k = si.toNat + 1) (hi : 1 ≤ i) :
    (upToInt si).Passes size i k := by
  induction k generalizing i with
  | zero => exact decide_eq_false (by omega)
  | succ k ih =>
      exact ⟨decide_eq_true (by omega), if_pos (by omega), ih (by omega) (by omega)⟩

/-- At the largest `int` the loop does not end: it has no next position. -/
theorem endless_upToInt : (upToInt (2 ^ 31 - 1)).Endless size fun i => i < 2 ^ 31 where
  first := by decide
  more i hi := decide_eq_true (by omega)
  next i j hi hj := by
    obtain ⟨hlt, hj⟩ := Option.ite_none_right_eq_some.1 hj
    exact Option.some.inj hj ▸ hlt

end LoopHead

/-! ## What the loops go over -/

namespace CList

variable {head : LoopHead} {body : σ → Nat → Option D → Option σ} {l : CList D} {back : Addr} {nodes : List Addr}
  {xs ys pre post : List (Option D)} {st : σ} {i fuel : Nat}

/-- The positions that a loop passes are those of a part of the list, the front sentinel's included. -/
theorem loopFrom_spec (body : σ → Nat → Option D → Option σ) (h : l.Stands back nodes xs)
    (hcut : none :: xs = pre ++ (ys ++ post)) (hpasses : head.Passes l.size pre.length ys.length)
    (hlt : pre.length + ys.length ≤ 2 ^ 32) (st : σ) :
    ∃ l', l'.Stands back nodes xs ∧ ∀ fuel, loopFrom head body fuel pre.length l st =
      if ys.length < fuel then
        ((ys.zipIdx pre.length).foldlM (fun st p => body st p.2 p.1) st).map fun st => (st, l')
      else none := by
  -- The part is what the loop has still to pass; one pass moves an element of it to the part before.
  induction ys generalizing l pre st with
  | nil =>
      refine ⟨l, h, fun fuel => ?_⟩
      cases fuel with
      | zero => rfl
      | succ fuel =>
          rw [loopFrom, if_neg (Bool.eq_false_iff.1 hpasses)]
          exact (if_pos (Nat.succ_pos fuel)).symm
  | cons y ys ih =>
      obtain ⟨hmore, hnext, hrest⟩ := hpasses
      have hlen := congrArg List.length hcut
      simp only [List.length_cons, List.length_append] at hlen hlt
      obtain ⟨d, l₁, hget, h₁, hdata⟩ := h.listGet (n := pre.length) (by omega) (by omega)
      have hy : (none :: xs)[pre.length]? = some y := by
        rw [hcut, List.cons_append, List.getElem?_append_right (Nat.le_refl _), Nat.sub_self, List.getElem?_cons_zero]
      obtain rfl : y = d := Option.some.inj (hy.symm.trans (hdata (by omega)))
      have hsize : l.size = l₁.size := h.length_xs.trans h₁.length_xs.symm
      cases hbody : body st pre.length y with
      | none =>
          refine ⟨l, h, fun fuel => ?_⟩
          have hfold : ((y :: ys).zipIdx pre.length).foldlM (fun st p => body st p.2 p.1) st = none := by
            rw [List.zipIdx_cons, List.foldlM_cons, hbody]
            rfl
          rw [hfold, Option.map_none, ite_self]
          cases fuel with
          | zero => rfl
          | succ fuel =>
              rw [loopFrom, if_pos hmore, hget]
              simp only [Option.bind_eq_bind, Option.bind_some, hbody, Option.bind_none]
      | some st₁ =>
          have hcut₁ : none :: xs = (pre ++ [y]) ++ (ys ++ post) := by rw [hcut]; simp
          have hlen₁ : (pre ++ [y]).length = pre.length + 1 := List.length_append
          obtain ⟨l', h', hloop⟩ := ih h₁ hcut₁ (by rw [← hsize, hlen₁]; exact hrest) (by rw [hlen₁]; omega) st₁
          refine ⟨l', h', fun fuel => ?_⟩
          rw [List.zipIdx_cons, List.foldlM_cons, hbody, Option.bind_eq_bind, Option.bind_some]
          cases fuel with
          | zero => rfl
          | succ fuel =>
              have hstep := hloop fuel
              rw [hlen₁] at hstep
              rw [loopFrom, if_pos hmore, hget, List.length_cons]
              simp only [Option.bind_eq_bind, Option.bind_some, hbody, hnext, hstep, Nat.add_lt_add_iff_right]

/-- A loop that stays where its condition holds uses up any fuel. -/
theorem loopFrom_endless {P : Nat → Prop} {size : Nat} (hendless : head.Endless size P) (hsize : l.size = size)
    (hi : P i) (st : σ) : loopFrom head body fuel i l st = none := by
  induction fuel generalizing i l st with
  | zero => rfl
  | succ fuel ih =>
      rw [loopFrom, if_pos (hsize ▸ hendless.more i hi)]
      refine Option.bind_eq_none_iff.2 fun r hget => Option.bind_eq_none_iff.2 fun st₁ _ =>
        Option.bind_eq_none_iff.2 fun j hj => ?_
      obtain ⟨d, l₁⟩ := r
      obtain ⟨q, rfl⟩ := listGet_eq hget
      refine ih ?_ (hendless.next i j hi hj) st₁
      exact hsize

/-- The call returns, the list stands for what it stood for, and what is made is as said. -/
def Makes (back : Addr) (nodes : List Addr) (xs : List (Option D)) (run : Nat → Option (σ × CList D))
    (made : σ → Prop) : Prop :=
  ∃ fuel st l', run fuel = some (st, l') ∧ l'.Stands back nodes xs ∧ made st

variable {made : σ → Prop}

theorem forLoop_makes_iff (h : l.Stands back nodes xs) (hcut : none :: xs = pre ++ (ys ++ post))
    (hfirst : head.first = pre.length) (hpasses : head.Passes l.size pre.length ys.length)
    (hlt : pre.length + ys.length ≤ 2 ^ 32) (st : σ) :
    Makes back nodes xs (fun fuel => forLoop head body fuel l st) made ↔
      ∃ st', (ys.zipIdx pre.length).foldlM (fun st p => body st p.2 p.1) st = some st' ∧ made st' := by
  obtain ⟨l', h', hloop⟩ := loopFrom_spec body h hcut hpasses hlt st
  unfold Makes forLoop
  rw [hfirst]
  constructor
  · rintro ⟨fuel, st', l'', hrun, -, hmade⟩
    obtain ⟨-, hrun⟩ := Option.ite_none_right_eq_some.1 ((hloop fuel).symm.trans hrun)
    obtain ⟨st'', hfold, heq⟩ := Option.map_eq_some_iff.1 hrun
    obtain ⟨rfl, rfl⟩ := Prod.mk.inj heq
    exact ⟨st'', hfold, hmade⟩
  · rintro ⟨st', hfold, hmade⟩
    refine ⟨ys.length + 1, st', l', (hloop _).trans ?_, h', hmade⟩
    rw [if_pos (Nat.lt_succ_self _), hfold]
    rfl

theorem not_makes_of_endless {P : Nat → Prop} (hendless : head.Endless l.size P) (st : σ) :
    ¬ Makes back nodes xs (fun fuel => forLoop head body fuel l st) made := by
  rintro ⟨fuel, st', l', hrun, -⟩
  have hnone : forLoop head body fuel l st = none := loopFrom_endless hendless rfl hendless.first st
  cases hnone.symm.trans hrun

theorem belowSize_makes_iff (h : l.Stands back nodes xs) (hsize : xs.length < 2 ^ 32) (st : σ) :
    Makes back nodes xs (fun fuel => forLoop .belowSize body fuel l st) made ↔
      ∃ st', ((none :: xs).dropLast.zipIdx).foldlM (fun st p => body st p.2 p.1) st = some st' ∧ made st' := by
  have hcut : none :: xs = [] ++ ((none :: xs).dropLast ++ [(none :: xs).getLast (List.cons_ne_nil _ _)]) :=
    (List.dropLast_append_getLast _).symm
  have hlen : (none :: xs).dropLast.length = xs.length := by
    rw [List.length_dropLast, List.length_cons, Nat.add_sub_cancel]
  refine forLoop_makes_iff h hcut rfl ?_ (by rw [hlen, List.length_nil]; omega) st
  refine LoopHead.passes_belowSize (h.length_xs ▸ hsize) ?_
  rw [hlen, h.length_xs, List.length_nil, Nat.zero_add]

theorem not_makes_belowSize (h : l.Stands back nodes xs) (hsize : ¬ xs.length < 2 ^ 32) (st : σ) :
    ¬ Makes back nodes xs (fun fuel => forLoop .belowSize body fuel l st) made := by
  refine not_makes_of_endless (LoopHead.endless_belowSize ?_) st
  rw [h.length_xs]
  exact Nat.le_of_not_lt hsize

theorem upToSize_makes_iff (h : l.Stands back nodes xs) (hsize : xs.length < 2 ^ 32 - 1) (st : σ) :
    Makes back nodes xs (fun fuel => forLoop .upToSize body fuel l st) made ↔
      ∃ st', (xs.zipIdx 1).foldlM (fun st p => body st p.2 p.1) st = some st' ∧ made st' := by
  have hcut : none :: xs = [none] ++ (xs ++ []) := by rw [List.append_nil, List.singleton_append]
  refine forLoop_makes_iff h hcut rfl ?_ (by rw [List.length_singleton]; omega) st
  refine LoopHead.passes_upToSize (h.length_xs ▸ hsize) ?_
  rw [h.length_xs, List.length_singleton, Nat.add_comm]

theorem not_makes_upToSize (h : l.Stands back nodes xs) (hsize : ¬ xs.length < 2 ^ 32 - 1) (st : σ) :
    ¬ Makes back nodes xs (fun fuel => forLoop .upToSize body fuel l st) made := by
  refine not_makes_of_endless (LoopHead.endless_upToSize ?_) st
  rw [h.length_xs]
  exact Nat.le_of_not_lt hsize

/-- A loop up to an `int` goes over as many elements as it says: over none, where it is negative. -/
theorem upToInt_makes_iff {si : Int} (h : l.Stands back nodes xs) (hsi : si < 2 ^ 31 - 1) (hle : si.toNat ≤ xs.length)
    (st : σ) : Makes back nodes xs (fun fuel => forLoop (.upToInt si) body fuel l st) made ↔
      ∃ st', ((xs.take si.toNat).zipIdx 1).foldlM (fun st p => body st p.2 p.1) st = some st' ∧ made st' := by
  have hcut : none :: xs = [none] ++ (xs.take si.toNat ++ xs.drop si.toNat) := by
    rw [List.take_append_drop, List.singleton_append]
  have hlen : (xs.take si.toNat).length = si.toNat := List.length_take_of_le hle
  refine forLoop_makes_iff h hcut rfl ?_ (by rw [hlen, List.length_singleton]; omega) st
  refine LoopHead.passes_upToInt hsi ?_ (Nat.le_refl 1)
  rw [hlen, List.length_singleton, Nat.add_comm]

/-- The size as an `int`. -/
theorem toInt32_size (n : Nat) : (toInt32 n = 2 ^ 31 - 1 ∧ ¬ n < 2 ^ 31 - 1) ∨
    (toInt32 n < 2 ^ 31 - 1 ∧ (toInt32 n).toNat ≤ n ∧ (n ≤ (toInt32 n).toNat ↔ n < 2 ^ 31 - 1)) := by
  by_cases hn : n < 2 ^ 31
  · rw [toInt32_of_lt hn]
    omega
  · have hlt := (toInt32_bounds n).2
    omega

end CList

/-! ## A sequence behind one more element -/

section

variable {α : Type} {x : α} {xs : List α}

/-- Behind `x` and without its last element a sequence is what it was if and only if it has no other elements. -/
theorem dropLast_cons_eq_iff : (x :: xs).dropLast = xs ↔ ∀ y ∈ xs, y = x := by
  induction xs with
  | nil => exact iff_of_true rfl nofun
  | cons y xs ih =>
      rw [List.dropLast_cons_cons, List.forall_mem_cons]
      constructor
      · intro heq
        obtain ⟨rfl, htail⟩ := List.cons.inj heq
        exact ⟨rfl, ih.1 htail⟩
      · rintro ⟨rfl, hall⟩
        rw [ih.2 hall]

/-- In any order, it is what it was if and only if the last element is `x`. -/
theorem dropLast_cons_perm_iff : (x :: xs).dropLast.Perm xs ↔ (x :: xs).getLast (List.cons_ne_nil x xs) = x := by
  have hlast : ((x :: xs).getLast (List.cons_ne_nil x xs) :: (x :: xs).dropLast).Perm (x :: xs) := by
    refine (List.perm_append_singleton _ _).symm.trans (.of_eq ?_)
    exact List.dropLast_append_getLast _
  constructor
  · intro hperm
    have heq := Multiset.coe_eq_coe.2 ((hperm.symm.cons _).trans hlast)
    rw [← Multiset.cons_coe, ← Multiset.cons_coe, Multiset.cons_inj_left] at heq
    exact heq
  · intro heq
    rw [heq] at hlast
    exact (List.perm_cons x).1 hlast

theorem take_map_eq_iff {β : Type} {g : α → β} {k : Nat} : (xs.take k).map g = xs.map g ↔ xs.length ≤ k := by
  constructor
  · intro heq
    have hlen := congrArg List.length heq
    rw [List.length_map, List.length_map, List.length_take] at hlen
    omega
  · intro hle
    rw [List.take_of_length_le hle]

theorem foldlM_zipIdx (g : σ → α → Option σ) (n : Nat) (st : σ) :
    (xs.zipIdx n).foldlM (fun st p => g st p.1) st = xs.foldlM g st := by
  conv => rhs; rw [← List.zipIdx_map_fst n xs]
  rw [List.foldlM_map]

end

namespace CList

variable {l : CList D} {back : Addr} {nodes : List Addr} {xs ys pre post : List (Option D)}

/-! ## `list_to_array` -/

/-- The cells are written one behind the other. -/
theorem store_foldlM {front rest : List (Option D)} {array : Block (Option D)}
    (hcells : array.cells = front.map some ++ List.replicate rest.length none) :
    (rest.zipIdx front.length).foldlM (fun array p => array.store p.2 p.1) array =
      some ⟨(front ++ rest).map some⟩ := by
  induction rest generalizing array front with
  | nil =>
      rw [List.length_nil, List.replicate_zero, List.append_nil] at hcells
      rw [List.append_nil]
      exact congrArg some (congrArg Block.mk hcells)
  | cons y rest ih =>
      rw [List.length_cons, List.replicate_succ] at hcells
      have hstore := Block.store_eq_of_cells hcells y
      rw [List.length_map] at hstore
      rw [List.zipIdx_cons, List.foldlM_cons, hstore, Option.bind_eq_bind, Option.bind_some]
      have hcells' : (⟨front.map some ++ some y :: List.replicate rest.length none⟩ : Block (Option D)).cells =
          (front ++ [y]).map some ++ List.replicate rest.length none := by simp
      have hnext := ih hcells'
      rw [List.length_append, List.length_singleton, List.append_assoc, List.singleton_append] at hnext
      exact hnext

/-- `list_to_array` gives the elements if and only if they are all NULL. -/
theorem listToArray_iff (h : l.Stands back nodes xs) :
    Makes back nodes xs (listToArray l) (fun array => array.cells = xs.map some) ↔
      xs.length < 2 ^ 32 ∧ ∀ x ∈ xs, x = none := by
  by_cases hsize : xs.length < 2 ^ 32
  · refine (belowSize_makes_iff h hsize _).trans ?_
    have hempty : (Block.alloc l.size : Block (Option D)).cells =
        ([] : List (Option D)).map some ++ List.replicate (none :: xs).dropLast.length none := by
      rw [List.length_dropLast, List.length_cons, Nat.add_sub_cancel, h.length_xs]
      rfl
    have hfold := store_foldlM hempty
    rw [List.length_nil, List.nil_append] at hfold
    rw [hfold, and_iff_right hsize, ← dropLast_cons_eq_iff]
    constructor
    · rintro ⟨array, harray, hcells⟩
      obtain rfl := Option.some.inj harray
      exact List.map_injective_iff.2 (fun _ _ => Option.some.inj) hcells
    · intro heq
      exact ⟨_, rfl, congrArg (List.map some) heq⟩
  · exact iff_of_false (not_makes_belowSize h hsize _) fun hall => hsize hall.1

/-! ## `list_to_hashtable` -/

section

variable {elementKeyname : Option D → Option CString}

/-- An element under its key. -/
def entryOf (elementKeyname : Option D → Option CString) (el : Option D) : Option (CString × Option D) :=
  (elementKeyname el).map fun key => (key, el)

theorem mapM_entryOf_iff {entries : List (CString × Option D)} : ys.mapM (entryOf elementKeyname) = some entries ↔
    (∀ y ∈ ys, (elementKeyname y).isSome) ∧ entries = ys.map fun y => ((elementKeyname y).getD [], y) := by
  induction ys generalizing entries with
  | nil => exact ⟨fun heq => ⟨nofun, (Option.some.inj heq).symm⟩, fun h => congrArg some h.2.symm⟩
  | cons y ys ih =>
      rw [List.mapM_cons, List.forall_mem_cons, List.map_cons]
      cases hkey : elementKeyname y with
      | none =>
          rw [entryOf, hkey]
          exact iff_of_false nofun fun h => Bool.false_ne_true h.1.1
      | some key =>
          rw [entryOf, hkey]
          simp only [Option.map_some, Option.bind_eq_bind, Option.bind_some, Option.bind_eq_some_iff, ih]
          constructor
          · rintro ⟨rest, ⟨hkeys, rfl⟩, heq⟩
            exact ⟨⟨rfl, hkeys⟩, (Option.some.inj heq).symm⟩
          · rintro ⟨⟨-, hkeys⟩, rfl⟩
            exact ⟨_, ⟨hkeys, rfl⟩, rfl⟩

theorem foldlM_htAddEntry (ht : HashTable (Option D)) :
    ys.foldlM (fun ht el => do
        let key ← elementKeyname el
        some (htAddEntry ht key el)) ht = (ys.mapM (entryOf elementKeyname)).map (ht ++ ·) := by
  induction ys generalizing ht with
  | nil => exact congrArg some (List.append_nil ht).symm
  | cons y ys ih =>
      rw [List.foldlM_cons, List.mapM_cons, entryOf]
      cases elementKeyname y with
      | none => rfl
      | some key =>
          refine (ih (htAddEntry ht key y)).trans ?_
          cases ys.mapM (entryOf elementKeyname) with
          | none => rfl
          | some entries => exact congrArg some (List.append_assoc ht [(key, y)] entries)

/-- `list_to_hashtable` has one entry for each element, under its key, if and only if the last element is NULL, and
every element has a key. -/
theorem listToHashtable_iff (h : l.Stands back nodes xs) :
    Makes back nodes xs (listToHashtable elementKeyname l)
        (fun ht => ∃ entries, xs.mapM (entryOf elementKeyname) = some entries ∧ ht.Perm entries) ↔
      xs.length < 2 ^ 32 ∧ (none :: xs).getLast (List.cons_ne_nil _ _) = none ∧
        ∀ x ∈ xs, (elementKeyname x).isSome := by
  by_cases hsize : xs.length < 2 ^ 32
  · refine (belowSize_makes_iff h hsize _).trans ?_
    rw [and_iff_right hsize, foldlM_zipIdx (fun ht el => do
      let key ← elementKeyname el
      some (htAddEntry ht key el)), foldlM_htAddEntry, ← dropLast_cons_perm_iff]
    constructor
    · rintro ⟨ht, hht, entries, hentries, hperm⟩
      obtain ⟨taken, htaken, rfl⟩ := Option.map_eq_some_iff.1 hht
      obtain ⟨-, rfl⟩ := mapM_entryOf_iff.1 htaken
      obtain ⟨hkeys, rfl⟩ := mapM_entryOf_iff.1 hentries
      -- The elements of the entries are those that the loop has gone over.
      have hsnd : ∀ zs : List (Option D),
          (zs.map fun y => ((elementKeyname y).getD [], y)).map Prod.snd = zs := fun zs => by
        rw [List.map_map]
        exact List.map_id zs
      have hmap := hperm.map Prod.snd
      rw [htCreate, List.nil_append, hsnd, hsnd] at hmap
      exact ⟨hmap, hkeys⟩
    · rintro ⟨hperm, hkeys⟩
      have htaken := mapM_entryOf_iff.2 ⟨fun y hy => hkeys y (hperm.subset hy), rfl⟩
      refine ⟨_, by rw [htaken]; rfl, _, mapM_entryOf_iff.2 ⟨hkeys, rfl⟩, ?_⟩
      exact hperm.map _
  · exact iff_of_false (not_makes_belowSize h hsize _) fun hall => hsize hall.1

end

/-! ## `list_append_list`, `list_copy` and `list_map_r` -/

/-- The addresses that are not taken stay free. -/
theorem listAppend_free {c c' : CList E} {a d : Addr} {x : Option E} (h : c.listAppend a x = some c') (hd : d ≠ a)
    (hfree : c.heap d = none) : c'.heap d = none := by
  obtain ⟨⟨previous, c₁⟩, hnode, h⟩ := Option.bind_eq_some_iff.1 h
  obtain rfl := listGetNode_eq hnode
  obtain ⟨next, -, h⟩ := Option.bind_eq_some_iff.1 h
  obtain ⟨c₂, hset, h⟩ := Option.bind_eq_some_iff.1 h
  obtain ⟨c₃, hset', h⟩ := Option.bind_eq_some_iff.1 h
  obtain rfl := Option.some.inj h
  have hfree₂ : c₂.heap d = none :=
    (nodeSetNext_heap hset hd).trans ((Function.update_of_ne hd ..).trans hfree)
  -- The node before the new one is a live one.
  have hne : d ≠ previous := by
    rintro rfl
    obtain ⟨node, hnode', -⟩ := Option.map_eq_some_iff.1 hset'
    rw [hfree₂] at hnode'
    cases hnode'
  exact (nodeSetNext_heap hset' hne).trans hfree₂

variable {c : CList E} {front cback : Addr} {cnodes addrs : List Addr} {zs : List (Option E)} {g : Option D → Option E}

/-- Appended one by one, the elements stand behind those that were there. -/
theorem appendNext_foldlM (hrep : c.Represents cback cnodes zs) (hfree : ∀ a ∈ addrs, c.heap a = none)
    (hnodup : addrs.Nodup) (hroom : ys.length ≤ addrs.length) (hfits : zs.length + ys.length ≤ 2 ^ 32) :
    ∃ c' cnodes', ys.foldlM (fun st y => appendNext st (g y)) (c, addrs) = some (c', addrs.drop ys.length) ∧
      c'.Represents cback cnodes' (zs ++ ys.map g) := by
  -- Every element takes one address, which no later one has.
  induction ys generalizing c cnodes zs addrs with
  | nil => exact ⟨c, cnodes, rfl, by rw [List.map_nil, List.append_nil]; exact hrep⟩
  | cons y ys ih =>
      cases addrs with
      | nil => exact absurd hroom (Nat.not_succ_le_zero _)
      | cons a addrs =>
          obtain ⟨hfirst, hlater⟩ := List.forall_mem_cons.1 hfree
          obtain ⟨hnew, hnodup⟩ := List.nodup_cons.1 hnodup
          rw [List.length_cons] at hfits
          obtain ⟨c₁, cnodes₁, happend, hrep₁⟩ := listAppend_spec (x := g y) hrep hfirst
          rw [listAppended_of_lt (g y) (by omega)] at hrep₁
          have hfree₁ : ∀ d ∈ addrs, c₁.heap d = none := fun d hd =>
            listAppend_free happend (fun heq => hnew (heq ▸ hd)) (hlater d hd)
          obtain ⟨c', cnodes', hfold, hrep'⟩ := ih hrep₁ hfree₁ hnodup (Nat.le_of_succ_le_succ hroom)
            (by rw [List.length_append, List.length_singleton]; omega)
          refine ⟨c', cnodes', ?_, by rw [List.map_cons, ← List.singleton_append, ← List.append_assoc]; exact hrep'⟩
          rw [List.foldlM_cons, appendNext, happend]
          exact hfold

/-- What a loop that appends makes of a new list. -/
theorem appended_iff {ws : List (Option E)} {n : Nat} (hnodup : (front :: cback :: addrs).Nodup)
    (hroom : ys.length ≤ addrs.length) (hfits : ys.length ≤ 2 ^ 32) :
    (∃ st, (ys.zipIdx n).foldlM (fun st p => appendNext st (g p.1)) (listNew front cback, addrs) = some st ∧
      ∃ cnodes, st.1.Represents cback cnodes ws) ↔ ys.map g = ws := by
  obtain ⟨hfront, hrest⟩ := List.nodup_cons.1 hnodup
  obtain ⟨hback, hnodup⟩ := List.nodup_cons.1 hrest
  have hne : front ≠ cback := fun heq => hfront (heq ▸ List.mem_cons_self)
  have hfree : ∀ a ∈ addrs, (listNew front cback : CList E).heap a = none := by
    intro a ha
    have hnefront : a ≠ front := fun heq => hfront (heq ▸ List.mem_cons_of_mem _ ha)
    have hneback : a ≠ cback := fun heq => hback (heq ▸ ha)
    exact (Function.update_of_ne hnefront ..).trans (Function.update_of_ne hneback ..)
  obtain ⟨c, cnodes, hfold, hrep⟩ := appendNext_foldlM (g := g) (represents_new hne) hfree hnodup hroom
    (by rw [List.length_nil, Nat.zero_add]; exact hfits)
  rw [foldlM_zipIdx fun st y => appendNext st (g y)]
  constructor
  · rintro ⟨st, hst, cnodes', hrep'⟩
    obtain rfl := Option.some.inj (hfold.symm.trans hst)
    exact hrep.unique hrep'
  · rintro rfl
    exact ⟨_, hfold, cnodes, hrep⟩

/-- `list_copy` copies a list if and only if its counter does not wrap at the size. -/
theorem listCopy_iff (h : l.Stands back nodes xs) (hnodup : (front :: cback :: addrs).Nodup)
    (hroom : l.size ≤ addrs.length) :
    Makes back nodes xs (listCopy front cback addrs l) (fun st => ∃ cnodes, st.1.Represents cback cnodes xs) ↔
      xs.length < 2 ^ 32 - 1 := by
  by_cases hsize : xs.length < 2 ^ 32 - 1
  · refine iff_of_true ((upToSize_makes_iff h hsize _).2 ?_) hsize
    exact (appended_iff (g := id) hnodup (h.length_xs ▸ hroom) (by omega)).2 (List.map_id xs)
  · exact iff_of_false (not_makes_upToSize h hsize _) hsize

/-- `list_map_r` maps a list if and only if its size is below the largest `int`. -/
theorem listMapR_iff {fn : Option D → A → Option E} {args : A} (h : l.Stands back nodes xs)
    (hnodup : (front :: cback :: addrs).Nodup) (hroom : l.size ≤ addrs.length) :
    Makes back nodes xs (listMapR fn args front cback addrs l)
        (fun st => ∃ cnodes, st.1.Represents cback cnodes (xs.map fun x => fn x args)) ↔
      xs.length < 2 ^ 31 - 1 := by
  unfold listMapR
  rw [h.length_xs] at hroom ⊢
  rcases toInt32_size xs.length with ⟨hend, hsize⟩ | ⟨hsi, hle, hsize⟩
  · rw [hend]
    exact iff_of_false (not_makes_of_endless LoopHead.endless_upToInt _) hsize
  · have hlen : (xs.take (toInt32 xs.length).toNat).length ≤ xs.length := List.length_take_le' _ _
    refine (upToInt_makes_iff h hsi hle _).trans ?_
    refine (appended_iff (g := fun x => fn x args) hnodup (hlen.trans hroom) ?_).trans (take_map_eq_iff.trans hsize)
    rw [List.length_take_of_le hle]
    omega

/-! ## `list_each_r` -/

/-- `list_each_r` visits the elements in order if and only if the size is below the largest `int`. -/
theorem listEachR_iff {args : A} (h : l.Stands back nodes xs) :
    (∀ (σ : Type) (fn : Option D → A → σ → σ) (st : σ), Makes back nodes xs (listEachR fn args st l)
        fun st' => st' = xs.foldl (fun st x => fn x args st) st) ↔ xs.length < 2 ^ 31 - 1 := by
  unfold listEachR
  rw [h.length_xs]
  rcases toInt32_size xs.length with ⟨hend, hsize⟩ | ⟨hsi, hle, hsize⟩
  · rw [hend]
    refine iff_of_false (fun hall => ?_) hsize
    exact not_makes_of_endless LoopHead.endless_upToInt _ (hall Unit (fun _ _ st => st) ())
  · -- The loop folds over as many elements as the size says as an `int`.
    have hvisits : ∀ (σ : Type) (fn : Option D → A → σ → σ) (st : σ),
        Makes back nodes xs (fun fuel =>
            forLoop (.upToInt (toInt32 xs.length)) (fun st _ data => some (fn data args st)) fuel l st)
          (fun st' => st' = xs.foldl (fun st x => fn x args st) st) ↔
        (xs.take (toInt32 xs.length).toNat).foldl (fun st x => fn x args st) st =
          xs.foldl (fun st x => fn x args st) st := by
      intro σ fn st
      refine (upToInt_makes_iff h hsi hle _).trans ?_
      rw [foldlM_zipIdx fun st x => some (fn x args st)]
      rw [show (fun st x => some (fn x args st)) = fun st x => (pure (fn x args st) : Option σ) from rfl,
        List.foldlM_pure]
      constructor
      · rintro ⟨st', heq, hst'⟩
        exact (Option.some.inj heq).trans hst'
      · exact fun heq => ⟨_, rfl, heq⟩
    refine ⟨fun hall => ?_, fun hlt σ fn st => ?_⟩
    · -- The visits that are written down one behind the other.
      have hlog := (hvisits (List (Option D)) (fun x _ st => x :: st) []).1
        (hall (List (Option D)) (fun x _ st => x :: st) [])
      have htake : xs.take (toInt32 xs.length).toNat = xs := by simpa using hlog
      exact hsize.1 ((take_map_eq_iff (g := id)).1 (congrArg (List.map id) htake))
    · refine (hvisits σ fn st).2 ?_
      rw [List.take_of_length_le (hsize.2 hlt)]

/-! ## The same sequence -/

/-- The loops that count from 1 present the elements in order. -/
structure InOrder (l : CList D) (back : Addr) (nodes : List Addr) (xs : List (Option D))
    (fn : Option D → A → Option E) (args : A) (front cback : Addr) (addrs : List Addr) : Prop where
  copy : Makes back nodes xs (listCopy front cback addrs l) fun st => ∃ cnodes, st.1.Represents cback cnodes xs
  map : Makes back nodes xs (listMapR fn args front cback addrs l) fun st =>
    ∃ cnodes, st.1.Represents cback cnodes (xs.map fun x => fn x args)
  each : ∀ (σ : Type) (visit : Option D → A → σ → σ) (st : σ), Makes back nodes xs (listEachR visit args st l)
    fun st' => st' = xs.foldl (fun st x => visit x args st) st

/-- All conversions present the elements of the list: `list_to_array` in order as well, and `list_to_hashtable` with
one entry for each, under its key. -/
structure SameSequence (l : CList D) (back : Addr) (nodes : List Addr) (xs : List (Option D))
    (fn : Option D → A → Option E) (args : A) (elementKeyname : Option D → Option CString) (front cback : Addr)
    (addrs : List Addr) : Prop extends InOrder l back nodes xs fn args front cback addrs where
  array : Makes back nodes xs (listToArray l) fun array => array.cells = xs.map some
  table : Makes back nodes xs (listToHashtable elementKeyname l) fun ht =>
    ∃ entries, xs.mapM (entryOf elementKeyname) = some entries ∧ ht.Perm entries

theorem inOrder_iff (h : l.Stands back nodes xs) (fn : Option D → A → Option E) (args : A)
    (hnodup : (front :: cback :: addrs).Nodup) (hroom : l.size ≤ addrs.length) :
    InOrder l back nodes xs fn args front cback addrs ↔ xs.length < 2 ^ 31 - 1 := by
  constructor
  · exact fun hall => (listEachR_iff h).1 hall.each
  · intro hlt
    exact
      { copy := (listCopy_iff h hnodup hroom).2 (by omega)
        map := (listMapR_iff h hnodup hroom).2 hlt
        each := (listEachR_iff h).2 hlt }

/-- After any calls and lookups, the conversions that count from 1 present the sequence if and only if its length is
below the largest `int`; all of them do if and only if the elements are all NULL besides, and NULL has a key. -/
theorem conversions_iff (h : l.Stands back nodes xs) (fn : Option D → A → Option E) (args : A)
    (elementKeyname : Option D → Option CString) (hnodup : (front :: cback :: addrs).Nodup)
    (hroom : l.size ≤ addrs.length) :
    (SameSequence l back nodes xs fn args elementKeyname front cback addrs ↔
        xs.length < 2 ^ 31 - 1 ∧ (∀ x ∈ xs, x = none) ∧ ∀ x ∈ xs, (elementKeyname x).isSome) ∧
      (InOrder l back nodes xs fn args front cback addrs ↔ xs.length < 2 ^ 31 - 1) := by
  have horder := inOrder_iff h fn args hnodup hroom
  refine ⟨⟨fun hall => ?_, ?_⟩, horder⟩
  · obtain ⟨-, hnull⟩ := (listToArray_iff h).1 hall.array
    obtain ⟨-, -, hkeys⟩ := (listToHashtable_iff h).1 hall.table
    exact ⟨horder.1 hall.toInOrder, hnull, hkeys⟩
  · rintro ⟨hlt, hnull, hkeys⟩
    have hlast : (none :: xs).getLast (List.cons_ne_nil _ _) = none := by
      rcases List.mem_cons.1 (List.getLast_mem (List.cons_ne_nil none xs)) with heq | hmem
      · exact heq
      · exact hnull _ hmem
    exact
      { toInOrder := horder.2 hlt
        array := (listToArray_iff h).2 ⟨by omega, hnull⟩
        table := (listToHashtable_iff h).2 ⟨by omega, hlast, hkeys⟩ }

theorem conversions_iff_seven_eight : ∃ (l : CList Nat) (nodes : List Addr),
    l.Stands 1 nodes [some 7, some 8] ∧
      InOrder l 1 nodes [some 7, some 8] (fun x (n : Nat) => x.map (· + n)) 1 2 3 [4, 5] ∧
      ¬ SameSequence l 1 nodes [some 7, some 8] (fun x (n : Nat) => x.map (· + n)) 1
        (fun x => some (decimal (x.getD 0))) 2 3 [4, 5] := by
  obtain ⟨l, nodes, hstands⟩ := exists_stands [some 7, some 8]
  have hboth := conversions_iff hstands (fun x (n : Nat) => x.map (· + n)) 1
    (fun x => some (decimal (x.getD 0))) (show (2 :: 3 :: [4, 5] : List Addr).Nodup by decide)
    (by rw [hstands.length_xs]; decide)
  exact ⟨l, nodes, hstands, hboth.2.2 (by decide), hboth.1.not.2 (by decide)⟩

/-- The array of two elements starts with the sentinel's NULL, and the second element is not in it. -/
theorem array_shifted : ∃ (l : CList Nat) (nodes : List Addr), l.Stands 1 nodes [some 7, some 8] ∧
    Makes 1 nodes [some 7, some 8] (listToArray l) (fun array => array.cells = [some none, some (some 7)]) ∧
      ∀ (fn : Option Nat → Nat → Option Nat) (args : Nat) (elementKeyname : Option Nat → Option CString)
        (front cback : Addr) (addrs : List Addr),
        ¬ SameSequence l 1 nodes [some 7, some 8] fn args elementKeyname front cback addrs := by
  obtain ⟨l, nodes, hstands⟩ := exists_stands [some 7, some 8]
  refine ⟨l, nodes, hstands, ?_, fun fn args elementKeyname front cback addrs hall => ?_⟩
  · unfold listToArray
    rw [hstands.length_xs]
    exact (belowSize_makes_iff hstands (by decide) _).2 ⟨_, rfl, rfl⟩
  · obtain ⟨-, hnulls⟩ := (listToArray_iff hstands).1 hall.array
    exact absurd (hnulls (some 7) List.mem_cons_self) nofun

end CList

end CUtil
end Raiezau
