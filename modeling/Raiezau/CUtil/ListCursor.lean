import Raiezau.CUtil.LinkedList
import Raiezau.Machine.Run

/-!
# ListCursor — a list with its cursor stands for a sequence

Whatever calls are made on a list, its cursor is the node at the position it is said to be at, and a lookup
gives the element that the plain sequence has there.  The positions are of 32 bits, though: a list that
grows past them appends its elements somewhere else (`along_refines_iff`).
-/

namespace Raiezau
namespace CUtil

open Memory Machine

variable {D : Type}

namespace CList

variable {s s' : CList D} {p a back : Addr} {x : Option D} {nodes : List Addr} {xs : List (Option D)} {n : Nat}

/-! ## The list stands for a sequence -/

/-- A chain whose cursor is where its position says. -/
structure Represents (s : CList D) (back : Addr) (nodes : List Addr) (xs : List (Option D)) : Prop
    extends Chained s back nodes xs where
  size_eq : s.size = nodes.length
  cursor_eq : (s.frontSentinel :: nodes)[s.curpos]? = some s.cursor
  curpos_lt : s.curpos < 2 ^ 32

theorem Represents.length_xs (h : s.Represents back nodes xs) : s.size = xs.length :=
  h.size_eq.trans h.length_eq

theorem represents_new (hne : p ≠ back) : (listNew p back : CList D).Represents back [] [] :=
  ⟨chained_new hne, rfl, rfl, Nat.two_pow_pos 32⟩

/-- The sequence that a list stands for is one. -/
theorem Represents.unique (h : s.Represents back nodes xs) {nodes' : List Addr} {xs' : List (Option D)}
    (h' : s.Represents back nodes' xs') : xs = xs' := by
  have hlen : nodes.length = nodes'.length := h.size_eq.symm.trans h'.size_eq
  have hchain := h.linked.unique h'.linked rfl (by simp [hlen])
  obtain rfl : nodes = nodes' := List.append_cancel_right (List.cons.inj hchain).2
  refine Relator.RightUnique.forall₂ (fun a x x' hx hx' => ?_) h.data h'.data
  exact (Prod.mk.inj (Option.some.inj (hx.symm.trans hx'))).1

/-- The position of a node of the chain. -/
theorem getElem?_chain (hp : (s.frontSentinel :: nodes)[n]? = some p) :
    (s.frontSentinel :: (nodes ++ [back]))[n]? = some p := by
  have hn : n < (s.frontSentinel :: nodes).length := (List.getElem?_eq_some_iff.1 hp).1
  rw [← List.cons_append, List.getElem?_append_left hn]
  exact hp

/-- The cursor is reached from the front sentinel. -/
theorem Represents.cursor_reached (h : s.Represents back nodes xs) :
    follow s.nodeNext s.curpos s.frontSentinel = some s.cursor :=
  h.linked.follow_head (getElem?_chain h.cursor_eq)

theorem Represents.cursor_live (h : s.Represents back nodes xs) : s.heap s.cursor ≠ none := by
  have hmem : s.cursor ∈ s.frontSentinel :: (nodes ++ [back]) :=
    List.mem_of_getElem? (getElem?_chain h.cursor_eq)
  intro hnone
  exact h.live hmem (by rw [content, hnone]; rfl)

/-- Lookups from the cursor end where those from the front sentinel do. -/
theorem Chained.listGetNode (h : s.Chained back nodes xs)
    (hcursor : (s.frontSentinel :: (nodes ++ [back]))[s.curpos]? = some s.cursor)
    (hp : (s.frontSentinel :: (nodes ++ [back]))[n]? = some p) :
    s.listGetNode n = some (p, { s with cursor := p, curpos := n }) := by
  unfold CList.listGetNode
  split
  · next hle =>
      have hsum : s.curpos + (n - s.curpos) = n := Nat.add_sub_cancel' hle
      rw [h.linked.follow_getElem hcursor (by rw [hsum]; exact hp)]
      rfl
  · rw [h.linked.follow_head hp]
    rfl

theorem Represents.listGetNode (h : s.Represents back nodes xs) (hn : n ≤ nodes.length) :
    ∃ p, s.listGetNode n = some (p, { s with cursor := p, curpos := n }) ∧
      (s.frontSentinel :: nodes)[n]? = some p := by
  have hp := List.getElem?_eq_getElem (l := s.frontSentinel :: nodes) (Nat.lt_succ_of_le hn)
  exact ⟨_, h.toChained.listGetNode (getElem?_chain h.cursor_eq) (getElem?_chain hp), hp⟩

/-- The cursor may be put on any node. -/
theorem Represents.moveCursor (h : s.Represents back nodes xs) (hn : n < 2 ^ 32)
    (hp : (s.frontSentinel :: nodes)[n]? = some p) :
    ({ s with cursor := p, curpos := n } : CList D).Represents back nodes xs :=
  ⟨⟨h.linked, h.nodup, h.data, h.front_sentinel, h.back_sentinel⟩, h.size_eq, hp, hn⟩

theorem getLast?_front (hp : (s.frontSentinel :: nodes)[n]? = some p) :
    (s.frontSentinel :: nodes.take n).getLast? = some p := by
  have htake : s.frontSentinel :: nodes.take n = (s.frontSentinel :: nodes).take (n + 1) := rfl
  rw [htake, List.getLast?_take, if_neg (Nat.succ_ne_zero n), Nat.add_sub_cancel, hp, Option.some_or]

/-- A node is put in behind the cursor. -/
theorem Represents.insertBehind (h : s.Represents back nodes xs) (hfresh : s.heap a = none) :
    ∃ s', s.insertBehind s.cursor a x = some s' ∧
      s'.Represents back (nodes.take s.curpos ++ a :: nodes.drop s.curpos)
        (xs.take s.curpos ++ x :: xs.drop s.curpos) := by
  have hcut : s.Chained back (nodes.take s.curpos ++ nodes.drop s.curpos)
      (xs.take s.curpos ++ xs.drop s.curpos) := by
    rw [List.take_append_drop, List.take_append_drop]
    exact h.toChained
  obtain ⟨s', hinsert, hchained, hsize, hhandle⟩ :=
    hcut.insertBehind (x := x) (by rw [List.length_take, List.length_take, h.length_eq])
      (getLast?_front h.cursor_eq) hfresh
  refine ⟨s', hinsert, hchained, ?_, ?_, hhandle.curpos_eq ▸ h.curpos_lt⟩
  · rw [hsize, h.size_eq]
    simp
    omega
  · have hlt : s.curpos < (s.frontSentinel :: nodes).length := (List.getElem?_eq_some_iff.1 h.cursor_eq).1
    rw [hhandle.front_eq, hhandle.curpos_eq, hhandle.cursor_eq, ← List.cons_append,
      List.getElem?_append_left (by simp at hlt ⊢; omega)]
    have htake : s.frontSentinel :: nodes.take s.curpos = (s.frontSentinel :: nodes).take (s.curpos + 1) :=
      rfl
    rw [htake, List.getElem?_take_of_lt (Nat.lt_succ_self _)]
    exact h.cursor_eq

theorem Represents.listInsert (h : s.Represents back nodes xs) (hfresh : s.heap a = none) {k : Nat}
    (hk : u32 (n + (2 ^ 32 - 1)) = k) (hle : k ≤ nodes.length) :
    ∃ s', s.listInsert a n x = some s' ∧
      s'.Represents back (nodes.take k ++ a :: nodes.drop k) (xs.take k ++ x :: xs.drop k) := by
  obtain ⟨p, hget, hp⟩ := h.listGetNode hle
  have hlt : k < 2 ^ 32 := hk ▸ Nat.mod_lt _ (Nat.two_pow_pos 32)
  obtain ⟨s', hinsert, hrep⟩ := (h.moveCursor hlt hp).insertBehind (x := x) hfresh
  refine ⟨s', ?_, hrep⟩
  unfold CList.listInsert
  rw [hk, hget]
  exact hinsert

theorem Represents.listRemove (h : s.Represents back nodes xs) (hn : 1 ≤ n) (hle : n ≤ nodes.length)
    (hlt : n < 2 ^ 32) :
    ∃ s', s.listRemove n = some s' ∧
      s'.Represents back (nodes.take (n - 1) ++ nodes.drop n) (xs.take (n - 1) ++ xs.drop n) := by
  have hk : u32 (n + (2 ^ 32 - 1)) = n - 1 := by
    unfold u32
    omega
  obtain ⟨p, hget, hp⟩ := h.listGetNode (n := n - 1) (by omega)
  have hxs : n ≤ xs.length := h.length_eq ▸ hle
  have hdrop : nodes.drop (n - 1) = nodes[n - 1] :: nodes.drop n := by
    rw [List.drop_eq_getElem_cons (by omega), Nat.sub_add_cancel hn]
  have hdrop' : xs.drop (n - 1) = xs[n - 1] :: xs.drop n := by
    rw [List.drop_eq_getElem_cons (by omega), Nat.sub_add_cancel hn]
  have hmoved := h.moveCursor (n := n - 1) (by omega) hp
  have hcut : ({ s with cursor := p, curpos := n - 1 } : CList D).Chained back
      (nodes.take (n - 1) ++ nodes[n - 1] :: nodes.drop n)
      (xs.take (n - 1) ++ xs[n - 1] :: xs.drop n) := by
    rw [← hdrop, ← hdrop', List.take_append_drop, List.take_append_drop]
    exact hmoved.toChained
  have hlast := getLast?_front hp
  obtain ⟨s', hunlink, hchained, hsize, hhandle⟩ :=
    hcut.unlinkBehind (by rw [List.length_take, List.length_take, h.length_eq]) hlast
  have hnext := hcut.next_eq hlast
  refine ⟨s', ?_, hchained, ?_, ?_, ?_⟩
  · unfold CList.listRemove
    rw [hk, hget]
    show (do
      let tmp ← ({ s with cursor := p, curpos := n - 1 } : CList D).nodeNext p
      ({ s with cursor := p, curpos := n - 1 } : CList D).unlinkBehind p tmp) = some s'
    rw [hnext]
    exact hunlink
  · rw [hsize]
    show s.size - 1 = _
    rw [h.size_eq]
    simp
    omega
  · rw [hhandle.front_eq, hhandle.curpos_eq, hhandle.cursor_eq, ← List.cons_append,
      List.getElem?_append_left (by simp; omega)]
    have htake : s.frontSentinel :: nodes.take (n - 1) = (s.frontSentinel :: nodes).take (n - 1 + 1) := rfl
    show (s.frontSentinel :: nodes.take (n - 1))[n - 1]? = some p
    rw [htake, List.getElem?_take_of_lt (Nat.lt_succ_self _)]
    exact hp
  · rw [hhandle.curpos_eq]
    show n - 1 < 2 ^ 32
    omega

theorem Represents.listGet (h : s.Represents back nodes xs) (hn : 1 ≤ n) (hle : n ≤ nodes.length)
    (hlt : n < 2 ^ 32) :
    ∃ d s', s.listGet n = some (d, s') ∧ s'.Represents back nodes xs ∧ xs[n - 1]? = some d := by
  obtain ⟨p, hget, hp⟩ := h.listGetNode hle
  have hnode : nodes[n - 1]? = some p := by
    rw [← Nat.sub_add_cancel hn, List.getElem?_cons_succ] at hp
    exact hp
  obtain ⟨hlt', hpeq⟩ := List.getElem?_eq_some_iff.1 hnode
  have hlt'' : n - 1 < xs.length := h.length_eq ▸ hlt'
  have hdata : s.content p = some (xs[n - 1], false) := hpeq ▸ h.data.get hlt' hlt''
  obtain ⟨next, hheap⟩ := exists_node hdata
  refine ⟨xs[n - 1], _, ?_, h.moveCursor hlt hp, List.getElem?_eq_getElem hlt''⟩
  unfold CList.listGet
  rw [hget]
  show (do
    let node ← s.heap p
    some (node.data, ({ s with cursor := p, curpos := n } : CList D))) = _
  rw [hheap]
  rfl

/-- Behind the front sentinel, before the cursor is put in order. -/
theorem Chained.listAdd (h : s.Chained back nodes xs) (hfresh : s.heap a = none) :
    ∃ s', s.listAdd a x = some s' ∧ s'.Chained back (a :: nodes) (x :: xs) ∧ s'.size = s.size + 1 ∧
      s'.frontSentinel = s.frontSentinel ∧ s'.cursor = s.cursor ∧
      s'.curpos = if s.curpos ≠ 0 then u32 (s.curpos + 1) else s.curpos := by
  have hcut : s.Chained back ([] ++ nodes) ([] ++ xs) := h
  have hlast : (s.frontSentinel :: ([] : List Addr)).getLast? = some s.frontSentinel := rfl
  obtain ⟨s', hinsert, hchained, hsize, hfront, hcursor, hcurpos⟩ :=
    hcut.insertBehind (x := x) rfl hlast hfresh
  refine ⟨{ s' with curpos := if s'.curpos ≠ 0 then u32 (s'.curpos + 1) else s'.curpos }, ?_,
    ⟨hchained.linked, hchained.nodup, hchained.data, hchained.front_sentinel, hchained.back_sentinel⟩, hsize,
    hfront, hcursor, by dsimp only; rw [hcurpos]⟩
  unfold CList.listAdd
  rw [hinsert]
  rfl

theorem Represents.listAdd (h : s.Represents back nodes xs) (hfresh : s.heap a = none)
    (hroom : s.curpos ≠ 2 ^ 32 - 1) :
    ∃ s', s.listAdd a x = some s' ∧ s'.Represents back (a :: nodes) (x :: xs) := by
  obtain ⟨s', hadd, hchained, hsize, hfront, hcursor, hcurpos⟩ := h.toChained.listAdd (x := x) hfresh
  have hlt := h.curpos_lt
  have hnext : u32 (s.curpos + 1) = s.curpos + 1 := Nat.mod_eq_of_lt (by omega)
  refine ⟨s', hadd, hchained, hsize.trans (congrArg Nat.succ h.size_eq), ?_, ?_⟩
  · have hold := h.cursor_eq
    rw [hfront, hcursor, hcurpos]
    split
    · next hne =>
        obtain ⟨k, hk⟩ := Nat.exists_eq_succ_of_ne_zero hne
        rw [hnext, hk]
        rw [hk] at hold
        exact hold
    · next hzero =>
        rw [Decidable.not_not] at hzero
        rw [hzero] at hold ⊢
        exact hold
  · rw [hcurpos]
    split
    · exact Nat.mod_lt _ (Nat.two_pow_pos 32)
    · exact hlt

/-- A position that wraps to that of the front sentinel. -/
theorem Represents.listAdd_wraps (h : s.Represents back nodes xs) (hfresh : s.heap a = none)
    (hfull : s.curpos = 2 ^ 32 - 1) :
    ∃ s', s.listAdd a x = some s' ∧ ∀ nodes' xs', ¬ s'.Represents back nodes' xs' := by
  obtain ⟨s', hadd, -, -, hfront, hcursor, hcurpos⟩ := h.toChained.listAdd (x := x) hfresh
  refine ⟨s', hadd, fun nodes' xs' hrep => ?_⟩
  have hzero : s'.curpos = 0 := by
    rw [hcurpos, hfull, if_pos (by decide)]
    rfl
  have hstart := hrep.cursor_eq
  rw [hzero, List.getElem?_cons_zero, hfront, hcursor] at hstart
  -- The cursor would be the front sentinel, which occurs once in the chain.
  have hcur : (s.frontSentinel :: (nodes ++ [back]))[s.curpos]? = some s.cursor :=
    getElem?_chain h.cursor_eq
  rw [hfull] at hcur
  have hmem : s.cursor ∈ nodes ++ [back] := List.mem_of_getElem? (i := 2 ^ 32 - 2) hcur
  exact (List.nodup_cons.1 h.nodup).1 (Option.some.inj hstart ▸ hmem)

theorem nodeSetNext_heap {b d : Addr} (h : s.nodeSetNext a b = some s') (hd : d ≠ a) :
    s'.heap d = s.heap d := by
  obtain ⟨node, -, rfl⟩ := Option.map_eq_some_iff.1 h
  exact Function.update_of_ne hd ..

/-- Elsewhere nothing is written. -/
theorem listAdd_heap {d : Addr} (h : s.listAdd a x = some s')
    (hda : d ≠ a) (hdf : d ≠ s.frontSentinel) : s'.heap d = s.heap d := by
  simp only [CList.listAdd, CList.insertBehind, Option.bind_eq_bind, Option.bind_eq_some_iff] at h
  obtain ⟨s₁, ⟨next, -, s₂, hset, s₃, hset', hs₁⟩, hs'⟩ := h
  obtain rfl := Option.some.inj hs₁
  obtain rfl := Option.some.inj hs'
  calc s₃.heap d
      = s₂.heap d := nodeSetNext_heap hset' hdf
    _ = (s.nodeNew a x).heap d := nodeSetNext_heap hset hda
    _ = s.heap d := Function.update_of_ne hda ..

section

variable [DecidableEq D]

/-- The loop puts the cursor on the front sentinel first, wherever it was. -/
theorem Chained.listRemoveValue (h : s.Chained back nodes xs) (hsize : s.size = nodes.length) (v : Option D) :
    ∃ s' nodes', s.listRemoveValue v = some s' ∧ s'.Represents back nodes' (CUtil.removeValue v xs) := by
  have hcut : ({ s with curpos := 0, cursor := s.frontSentinel } : CList D).Chained back
      ([] ++ nodes) ([] ++ xs) :=
    ⟨h.linked, h.nodup, h.data, h.front_sentinel, h.back_sentinel⟩
  have hlast : (s.frontSentinel :: ([] : List Addr)).getLast? = some s.frontSentinel := rfl
  have hlen : s.size = ([] : List Addr).length + nodes.length := hsize.trans (Nat.zero_add _).symm
  have hfuel : nodes.length < s.size + 1 := hsize ▸ Nat.lt_succ_self _
  obtain ⟨s', nodes', hloop, hchained, hsize, hfront, hcursor, hcurpos⟩ :=
    hcut.removeLoop (v := v) rfl hlast hlen hfuel
  refine ⟨s', nodes', hloop, hchained, ?_, ?_, ?_⟩
  · rw [hsize, List.length_nil, Nat.zero_add]
  · rw [hcurpos, hcursor, hfront]
    rfl
  · rw [hcurpos]
    exact Nat.two_pow_pos 32

theorem Represents.listRemoveValue (h : s.Represents back nodes xs) (v : Option D) :
    ∃ s' nodes', s.listRemoveValue v = some s' ∧ s'.Represents back nodes' (CUtil.removeValue v xs) :=
  h.toChained.listRemoveValue h.size_eq v

end

end CList

/-! ## Calls -/

/-- A call on a list.  The address is the one `malloc` returns. -/
inductive ListOp (D : Type)
  | add (a : Addr) (element : Option D)
  | append (a : Addr) (element : Option D)
  | insert (a : Addr) (n : Nat) (element : Option D)
  | remove (n : Nat)
  | get (n : Nat)
  | removeValue (value : Option D)
  deriving DecidableEq, Repr

section

variable [DecidableEq D]

/-- The sequence after a call. -/
def seqStep (xs : List (Option D)) : ListOp D → List (Option D)
  | .add _ x => x :: xs
  | .append _ x => xs ++ [x]
  | .insert _ n x => xs.take (n - 1) ++ x :: xs.drop (n - 1)
  | .remove n => xs.take (n - 1) ++ xs.drop n
  | .get _ => xs
  | .removeValue v => removeValue v xs

/-- What a call returns. -/
def seqResult (xs : List (Option D)) : ListOp D → Option (Option D)
  | .get n => xs[n - 1]?
  | _ => none

end

/-! ## `list_append` -/

variable {s : CList D} {a back : Addr} {nodes : List Addr} {x : Option D} {xs : List (Option D)}

/-- An element put before others ends up as if put behind them if they are equal to it. -/
theorem cons_eq_concat_iff : x :: xs = xs ++ [x] ↔ ∀ y ∈ xs, y = x := by
  constructor
  · intro heq y hy
    -- Shifted by one, every element is equal to the next.
    induction xs with
    | nil => cases hy
    | cons z xs ih =>
        obtain ⟨rfl, hrest⟩ := List.cons.inj heq
        rcases List.mem_cons.1 hy with rfl | hy
        · rfl
        · exact ih hrest hy
  · intro hall
    rw [List.eq_replicate_of_mem hall, ← List.replicate_succ, List.replicate_succ']

theorem listAppend_pos (n : Nat) : u32 (u32 (n + 1) + (2 ^ 32 - 1)) = n % 2 ^ 32 := by
  unfold u32
  omega

theorem CList.listAppend_spec (hrep : s.Represents back nodes xs) (hfresh : s.heap a = none) :
    ∃ s' nodes', s.listAppend a x = some s' ∧ s'.Represents back nodes' (listAppended xs x) := by
  have hle : xs.length % 2 ^ 32 ≤ nodes.length := hrep.length_eq ▸ Nat.mod_le _ _
  obtain ⟨s', hinsert, hrep'⟩ := hrep.listInsert (x := x) hfresh (listAppend_pos xs.length) hle
  refine ⟨s', _, ?_, hrep'⟩
  unfold CList.listAppend
  rw [hrep.length_xs]
  exact hinsert

/-! ## Runs -/

section

variable [DecidableEq D]

/-- What the calls are made with: fresh addresses, and positions in the list. -/
def Permitted (s : CList D) : ListOp D → Prop
  | .add a _ => (s.heap a).isNone
  | .append a _ => (s.heap a).isNone
  | .insert a n _ => (s.heap a).isNone ∧ 1 ≤ n ∧ n ≤ s.size + 1 ∧ n < 2 ^ 32
  | .remove n => 1 ≤ n ∧ n ≤ s.size ∧ n < 2 ^ 32
  | .get n => 1 ≤ n ∧ n ≤ s.size ∧ n < 2 ^ 32
  | .removeValue _ => True

instance (s : CList D) (op : ListOp D) : Decidable (Permitted s op) := by
  cases op <;> unfold Permitted <;> infer_instance

/-- A call: the list after it, and what it returns. -/
def perform (s : CList D) : ListOp D → Option (CList D × Option (Option D))
  | .add a x => (s.listAdd a x).map (·, none)
  | .append a x => (s.listAppend a x).map (·, none)
  | .insert a n x => (s.listInsert a n x).map (·, none)
  | .remove n => (s.listRemove n).map (·, none)
  | .get n => (s.listGet n).map fun (d, s) => (s, some d)
  | .removeValue v => (s.listRemoveValue v).map (·, none)

/-- The list and what the last call returned; nothing when a call has read a freed node. -/
abbrev Outcome (D : Type) := Option (CList D × Option (Option D))

def stepFn : Outcome D → ListOp D → Option (Outcome D)
  | none, _ => none
  | some (s, _), op => if Permitted s op then some (perform s op) else none

def Step (o : Outcome D) (op : ListOp D) (o' : Outcome D) : Prop := stepFn o op = some o'

def seqAfter : History (Outcome D) (ListOp D) → List (Option D)
  | [] => []
  | (_, op) :: h => seqStep (seqAfter h) op

def resultAfter : History (Outcome D) (ListOp D) → Option (Option D)
  | [] => none
  | (_, op) :: h => seqResult (seqAfter h) op

/-- The list stands for the sequence of the calls, and the last call returned what it does there. -/
structure Refines (back : Addr) (h : History (Outcome D) (ListOp D)) (s : CList D)
    (result : Option (Option D)) : Prop where
  result_eq : result = resultAfter h
  exists_nodes : ∃ nodes, s.Represents back nodes (seqAfter h)
  cursor_reached : follow s.nodeNext s.curpos s.frontSentinel = some s.cursor
  cursor_live : s.heap s.cursor ≠ none
  size_eq : s.size = (seqAfter h).length
  get_eq : ∀ n, 1 ≤ n → n ≤ s.size → n < 2 ^ 32 → (s.listGet n).map Prod.fst = (seqAfter h)[n - 1]?

def RefinesOutcome (back : Addr) (h : History (Outcome D) (ListOp D)) : Outcome D → Prop
  | none => False
  | some (s, result) => Refines back h s result

/-- The position of an appended element, and that of the cursor, fit an `unsigned int`; or else the element
is put before none but its equals. -/
def OpOk (h : History (Outcome D) (ListOp D)) (o : Outcome D) : ListOp D → Prop
  | .append _ x =>
      (seqAfter h).length < 2 ^ 32 ∨ ∀ y ∈ (seqAfter h).drop ((seqAfter h).length % 2 ^ 32), y = x
  | .add _ _ => o.all fun s => s.1.curpos ≠ 2 ^ 32 - 1
  | _ => True

instance (h : History (Outcome D) (ListOp D)) (o : Outcome D) (op : ListOp D) : Decidable (OpOk h o op) := by
  cases op <;> unfold OpOk <;> infer_instance

variable {o : Outcome D} {op : ListOp D} {front : Addr} {h : History (Outcome D) (ListOp D)}
  {result : Option (Option D)}

theorem refines_of_represents (hrep : s.Represents back nodes (seqAfter h)) (hresult : result = resultAfter h) :
    Refines back h s result := by
  refine ⟨hresult, ⟨nodes, hrep⟩, hrep.cursor_reached, hrep.cursor_live, hrep.length_xs, ?_⟩
  intro n hn hle hlt
  obtain ⟨d, s', hget, -, hd⟩ := hrep.listGet hn (hrep.size_eq ▸ hle) hlt
  rw [hget, hd]
  rfl

theorem refines_new (hne : front ≠ back) :
    RefinesOutcome back [] (some (CList.listNew front back, none) : Outcome D) :=
  refines_of_represents (CList.represents_new hne) rfl

/-- A call keeps what the list stands for if and only if its position fits. -/
theorem Refines.step (hrefines : Refines back h s result) (hperm : Permitted s op) :
    RefinesOutcome back ((some (s, result), op) :: h) (perform s op) ↔ OpOk h (some (s, result)) op := by
  obtain ⟨nodes, hrep⟩ := hrefines.exists_nodes
  have hsize := hrep.size_eq
  cases op with
  | add a x =>
      have hfresh : s.heap a = none := Option.isNone_iff_eq_none.1 hperm
      -- Where the position wraps the cursor is no longer where it says.
      by_cases hfull : s.curpos = 2 ^ 32 - 1
      · obtain ⟨s', hadd, hnot⟩ := hrep.listAdd_wraps (x := x) hfresh hfull
        rw [perform, hadd]
        constructor
        · intro hafter
          obtain ⟨nodes', hrep'⟩ := hafter.exists_nodes
          exact absurd hrep' (hnot _ _)
        · intro hok
          have hne : s.curpos ≠ 2 ^ 32 - 1 := by simpa [OpOk] using hok
          exact absurd hfull hne
      · obtain ⟨s', hadd, hrep'⟩ := hrep.listAdd (x := x) hfresh hfull
        rw [perform, hadd]
        refine ⟨fun _ => ?_, fun _ => refines_of_represents hrep' rfl⟩
        simpa [OpOk] using hfull
  | append a x =>
      have hfresh : s.heap a = none := Option.isNone_iff_eq_none.1 hperm
      obtain ⟨s', nodes', happend, hrep'⟩ := CList.listAppend_spec (x := x) hrep hfresh
      rw [perform, happend]
      have hiff : listAppended (seqAfter h) x = seqAfter h ++ [x] ↔
          ∀ y ∈ (seqAfter h).drop ((seqAfter h).length % 2 ^ 32), y = x := by
        have hcut : seqAfter h ++ [x] = (seqAfter h).take ((seqAfter h).length % 2 ^ 32) ++
            ((seqAfter h).drop ((seqAfter h).length % 2 ^ 32) ++ [x]) := by
          rw [← List.append_assoc, List.take_append_drop]
        rw [hcut, listAppended, List.append_cancel_left_eq]
        exact cons_eq_concat_iff
      constructor
      · intro hafter
        obtain ⟨nodes'', hrep''⟩ := hafter.exists_nodes
        exact .inr (hiff.1 (hrep'.unique hrep''))
      · intro hok
        have hall : ∀ y ∈ (seqAfter h).drop ((seqAfter h).length % 2 ^ 32), y = x := by
          rcases hok with hlt | hall
          · rw [Nat.mod_eq_of_lt hlt, List.drop_length]
            exact fun y hy => absurd hy List.not_mem_nil
          · exact hall
        rw [hiff.2 hall] at hrep'
        exact refines_of_represents hrep' rfl
  | insert a n x =>
      obtain ⟨hnone, hn, hle, hlt⟩ := hperm
      have hfresh : s.heap a = none := Option.isNone_iff_eq_none.1 hnone
      have hk : u32 (n + (2 ^ 32 - 1)) = n - 1 := by
        unfold u32
        omega
      obtain ⟨s', hinsert, hrep'⟩ := hrep.listInsert (x := x) hfresh hk (by omega)
      rw [perform, hinsert]
      exact ⟨fun _ => trivial, fun _ => refines_of_represents hrep' rfl⟩
  | remove n =>
      obtain ⟨hn, hle, hlt⟩ := hperm
      obtain ⟨s', hremove, hrep'⟩ := hrep.listRemove hn (hsize ▸ hle) hlt
      rw [perform, hremove]
      exact ⟨fun _ => trivial, fun _ => refines_of_represents hrep' rfl⟩
  | get n =>
      obtain ⟨hn, hle, hlt⟩ := hperm
      obtain ⟨d, s', hget, hrep', hd⟩ := hrep.listGet hn (hsize ▸ hle) hlt
      rw [perform, hget]
      exact ⟨fun _ => trivial, fun _ => refines_of_represents hrep' hd.symm⟩
  | removeValue v =>
      obtain ⟨s', nodes', hremove, hrep'⟩ := hrep.listRemoveValue v
      rw [perform, hremove]
      exact ⟨fun _ => trivial, fun _ => refines_of_represents hrep' rfl⟩

/-- Along a run the list stands for the sequence of the calls, its cursor is where its position says and no
freed node is read, if and only if the positions fit. -/
theorem along_refines_iff (hne : front ≠ back)
    (hrun : Run Step (some (CList.listNew front back, none) : Outcome D) h o) :
    Along (RefinesOutcome back) h o ↔ StepsMeet OpOk h := by
  refine Run.along_iff_stepsMeet (refines_new hne) (fun {h o op o'} _ hrefines hs => ?_) hrun
  cases o with
  | none => exact hrefines.elim
  | some s =>
      obtain ⟨s, result⟩ := s
      unfold Step stepFn at hs
      dsimp only at hs
      split at hs
      · next hperm =>
          obtain rfl := Option.some.inj hs
          exact Refines.step hrefines hperm
      · cases hs

/-- Calls that replay are a run, and what a check finds at its end holds. -/
theorem exists_run_of_replay (ops : List (ListOp Nat))
    {P : History (Outcome Nat) (ListOp Nat) → Outcome Nat → Prop} [∀ h o, Decidable (P h o)]
    (hre : (replay stepFn [] (some (CList.listNew 0 1, none)) ops).any (fun x => P x.1 x.2) = true) :
    ∃ h o, Run Step (some (CList.listNew 0 1, none) : Outcome Nat) h o ∧ P h o :=
  Run.exists_of_replay id ops hre

theorem along_refines_iff_five_calls :
    ∃ h o, Run Step (some (CList.listNew 0 1, none) : Outcome Nat) h o ∧
      (Along (RefinesOutcome 1) h o ↔ StepsMeet OpOk h) ∧ StepsMeet OpOk h ∧ h.length = 5 := by
  have hne : (0 : Addr) ≠ 1 := Nat.zero_ne_one
  obtain ⟨h, o, hrun, hok, hlen⟩ := exists_run_of_replay
    [.add 2 (some 7), .append 3 (some 8), .insert 4 2 (some 7), .removeValue (some 7), .get 1]
    (P := fun h _ => StepsMeet OpOk h ∧ h.length = 5) (by decide)
  exact ⟨h, o, hrun, along_refines_iff hne hrun, hok, hlen⟩

/-! ## A list of `2 ^ 32` elements -/

/-- The cursor stays on the front sentinel while elements are put in front. -/
theorem exists_run_of_adds (xs : List (Option D)) :
    ∃ (h : History (Outcome D) (ListOp D)) (s : CList D) (nodes : List Addr),
      Run Step (some (CList.listNew 0 1, none)) h (some (s, none)) ∧ StepsMeet OpOk h ∧ seqAfter h = xs ∧
        s.Represents 1 nodes xs ∧ s.curpos = 0 ∧ s.frontSentinel = 0 ∧
          ∀ a, xs.length + 2 ≤ a → s.heap a = none := by
  -- One call more puts one element more in front of the others.
  induction xs with
  | nil =>
      refine ⟨[], _, [], .start, trivial, rfl, CList.represents_new Nat.zero_ne_one, rfl, rfl, fun a ha => ?_⟩
      have hzero : a ≠ 0 := by omega
      have hone : a ≠ 1 := by omega
      exact (Function.update_of_ne hzero ..).trans (Function.update_of_ne hone ..)
  | cons x xs ih =>
      obtain ⟨h, s, nodes, hrun, hok, hseq, hrep, hcurpos, hfront, hfree⟩ := ih
      have hfresh : s.heap (xs.length + 2) = none := hfree (xs.length + 2) (Nat.le_refl _)
      have hroom : s.curpos ≠ 2 ^ 32 - 1 := by
        rw [hcurpos]
        decide
      obtain ⟨s', hadd, hrep'⟩ := hrep.listAdd (x := x) hfresh hroom
      obtain ⟨s'', hadd', -, -, hfront', -, hcurpos'⟩ := hrep.toChained.listAdd (x := x) hfresh
      obtain rfl : s' = s'' := Option.some.inj (hadd.symm.trans hadd')
      have hstep : Step (some (s, none)) (.add (xs.length + 2) x) (some (s', none)) := by
        have hperm : Permitted s (.add (xs.length + 2) x) := Option.isNone_iff_eq_none.2 hfresh
        unfold Step stepFn
        dsimp only
        rw [if_pos hperm, perform, hadd]
        rfl
      have hfits : OpOk h (some (s, none)) (.add (xs.length + 2) x) := decide_eq_true hroom
      refine ⟨_, s', _, hrun.next hstep, ⟨hfits, hok⟩, ?_, hrep', ?_, hfront'.trans hfront, fun a ha => ?_⟩
      · rw [seqAfter, seqStep, hseq]
      · rw [hcurpos', hcurpos]
        rfl
      · rw [List.length_cons] at ha
        have hne : a ≠ xs.length + 2 := by omega
        have hne' : a ≠ s.frontSentinel := by
          rw [hfront]
          exact Nat.ne_of_gt (Nat.lt_of_lt_of_le (Nat.succ_pos _) ha)
        exact (CList.listAdd_heap hadd hne hne').trans (hfree a (by omega))

/-- After so many elements that the position wraps to the first, an element is appended before them. -/
theorem exists_run_of_append {m : Nat} (hm : m % 2 ^ 32 = 0) :
    ∃ (h : History (Outcome Nat) (ListOp Nat)) (s : CList Nat),
      Run Step (some (CList.listNew 0 1, none)) h (some (s, none)) ∧
        seqAfter h = List.replicate m (some 7) ++ [some 8] ∧ (s.listGet 1).map Prod.fst = some (some 8) := by
  obtain ⟨h, s, nodes, hrun, -, hseq, hrep, -, -, hfree⟩ := exists_run_of_adds (List.replicate m (some 7))
  have hfresh : s.heap (m + 2) = none := hfree (m + 2) (by rw [List.length_replicate])
  obtain ⟨s', nodes', happend, hrep'⟩ := CList.listAppend_spec (x := some 8) hrep hfresh
  have hstep : Step (some (s, none)) (.append (m + 2) (some 8)) (some (s', none)) := by
    have hperm : Permitted s (.append (m + 2) (some 8)) := Option.isNone_iff_eq_none.2 hfresh
    unfold Step stepFn
    dsimp only
    rw [if_pos hperm, perform, happend]
    rfl
  have hlen : (List.replicate m (some 7)).length % 2 ^ 32 = 0 := by rw [List.length_replicate, hm]
  rw [listAppended, hlen, List.take_zero, List.drop_zero, List.nil_append] at hrep'
  have hsize : 1 ≤ nodes'.length := by
    rw [hrep'.length_eq, List.length_cons]
    omega
  obtain ⟨d, s'', hget, -, hd⟩ := hrep'.listGet (Nat.le_refl 1) hsize (by decide)
  refine ⟨_, s', hrun.next hstep, by rw [seqAfter, seqStep, hseq], ?_⟩
  rw [hget]
  exact hd.symm

/-- `2 ^ 32` elements are added and one is appended: it is the first. -/
theorem appended_first :
    ∃ (h : History (Outcome Nat) (ListOp Nat)) (s : CList Nat),
      Run Step (some (CList.listNew 0 1, none)) h (some (s, none)) ∧
        seqAfter h = List.replicate (2 ^ 32) (some 7) ++ [some 8] ∧
        (s.listGet 1).map Prod.fst = some (some 8) :=
  exists_run_of_append (Nat.mod_self _)

end

end CUtil
end Raiezau
