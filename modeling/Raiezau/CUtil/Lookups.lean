import Raiezau.CUtil.ListCursor

/-!
# Lookups — a list after any lookups on it

A lookup may end at either sentinel: at position 0, and at the position behind the last element.  The cursor then
rests on the sentinel, and the next lookup starts there.  The front sentinel has no data: `list_new` gives it none,
and no call on the list writes over the data of a node.
-/

namespace Raiezau
namespace CUtil

open Memory Machine

variable {D : Type}

namespace CList

variable {s s' : CList D} {p a d back : Addr} {x : Option D} {nodes : List Addr} {xs : List (Option D)} {n : Nat}

/-! ## The data of the front sentinel -/

def FrontNull (s : CList D) : Prop := s.content s.frontSentinel = some (none, true)

theorem frontNull_new (front back : Addr) : (listNew front back : CList D).FrontNull := by
  unfold FrontNull content listNew
  dsimp only
  rw [Function.update_self]
  rfl

/-- What a call leaves of the nodes that were there: their data, unless they are freed. -/
structure Frees (s s' : CList D) : Prop where
  front_eq : s'.frontSentinel = s.frontSentinel
  content_eq : ∀ d, s'.content d = s.content d ∨ s'.content d = none

theorem Frees.refl (s : CList D) : Frees s s := ⟨rfl, fun _ => .inl rfl⟩

theorem Frees.trans {s'' : CList D} (h : Frees s s') (h' : Frees s' s'') : Frees s s'' := by
  refine ⟨h'.front_eq.trans h.front_eq, fun d => ?_⟩
  rcases h'.content_eq d with heq | hnone
  · rw [heq]
    exact h.content_eq d
  · exact .inr hnone

/-- The sentinel of a list is not freed. -/
theorem FrontNull.of_frees (h : s.FrontNull) (hfrees : Frees s s') (hchained : s'.Chained back nodes xs) :
    s'.FrontNull := by
  obtain ⟨d, hd⟩ := hchained.front_sentinel
  unfold FrontNull
  rcases hfrees.content_eq s'.frontSentinel with heq | hnone
  · rw [heq, hfrees.front_eq]
    exact h
  · rw [hd] at hnone
    cases hnone

theorem nodeSetNext_same {b : Addr} (h : s.nodeSetNext a b = some s') :
    s'.frontSentinel = s.frontSentinel ∧ s'.content = s.content := by
  obtain ⟨node, hnode, rfl⟩ := Option.map_eq_some_iff.1 h
  refine ⟨rfl, funext fun d => ?_⟩
  by_cases hd : d = a
  · rw [hd, content_store_self, content, hnode]
    rfl
  · exact content_store_of_ne hd

theorem unlinkBehind_frees (h : s.unlinkBehind p a = some s') : Frees s s' := by
  obtain ⟨next, -, h⟩ := Option.bind_eq_some_iff.1 h
  obtain ⟨s₁, hset, h⟩ := Option.bind_eq_some_iff.1 h
  obtain rfl := Option.some.inj h
  obtain ⟨hfront, hcontent⟩ := nodeSetNext_same hset
  refine ⟨hfront, fun d => ?_⟩
  by_cases hd : d = a
  · exact .inr (hd ▸ content_store_self none)
  · exact .inl ((content_store_of_ne hd).trans (congrFun hcontent d))

theorem listGetNode_eq {q : Addr} (h : s.listGetNode n = some (q, s')) :
    s' = { s with cursor := q, curpos := n } := by
  unfold listGetNode at h
  split at h <;>
  · obtain ⟨node, -, h⟩ := Option.bind_eq_some_iff.1 h
    obtain ⟨rfl, rfl⟩ := Prod.mk.inj (Option.some.inj h)
    rfl

theorem listGet_eq (h : s.listGet n = some (x, s')) : ∃ q, s' = { s with cursor := q, curpos := n } := by
  obtain ⟨⟨q, s₁⟩, hnode, h⟩ := Option.bind_eq_some_iff.1 h
  obtain ⟨node, -, h⟩ := Option.bind_eq_some_iff.1 h
  obtain ⟨-, rfl⟩ := Prod.mk.inj (Option.some.inj h)
  exact ⟨q, listGetNode_eq hnode⟩

theorem listRemove_frees (h : s.listRemove n = some s') : Frees s s' := by
  obtain ⟨⟨q, s₁⟩, hnode, h⟩ := Option.bind_eq_some_iff.1 h
  obtain ⟨tmp, -, h⟩ := Option.bind_eq_some_iff.1 h
  have hmoved : Frees s s₁ := by
    rw [listGetNode_eq hnode]
    exact ⟨rfl, fun _ => .inl rfl⟩
  exact hmoved.trans (unlinkBehind_frees h)

/-- A new node takes no address of a live one. -/
theorem FrontNull.insertBehind (h : s.FrontNull) (hins : s.insertBehind p a x = some s') (hfresh : s.heap a = none) :
    s'.FrontNull := by
  have hne : s.frontSentinel ≠ a := by
    intro heq
    rw [FrontNull, heq, content, hfresh] at h
    cases h
  obtain ⟨next, -, hins⟩ := Option.bind_eq_some_iff.1 hins
  obtain ⟨s₁, hset₁, hins⟩ := Option.bind_eq_some_iff.1 hins
  obtain ⟨s₂, hset₂, hins⟩ := Option.bind_eq_some_iff.1 hins
  obtain rfl := Option.some.inj hins
  have hnew : (s.nodeNew a x).content s.frontSentinel = some (none, true) := (content_store_of_ne hne).trans h
  obtain ⟨hfront₁, hcontent₁⟩ := nodeSetNext_same hset₁
  obtain ⟨hfront₂, hcontent₂⟩ := nodeSetNext_same hset₂
  show s₂.content s₂.frontSentinel = some (none, true)
  rw [hfront₂, hfront₁, hcontent₂, hcontent₁]
  exact hnew

theorem FrontNull.listInsert (h : s.FrontNull) (hins : s.listInsert a n x = some s') (hfresh : s.heap a = none) :
    s'.FrontNull := by
  obtain ⟨⟨q, s₁⟩, hnode, hins⟩ := Option.bind_eq_some_iff.1 hins
  obtain rfl := listGetNode_eq hnode
  have hmoved : ({ s with cursor := q, curpos := u32 (n + (2 ^ 32 - 1)) } : CList D).FrontNull := h
  exact hmoved.insertBehind hins hfresh

theorem FrontNull.listAdd (h : s.FrontNull) (hadd : s.listAdd a x = some s') (hfresh : s.heap a = none) :
    s'.FrontNull := by
  obtain ⟨s₁, hins, hadd⟩ := Option.bind_eq_some_iff.1 hadd
  have hnull := h.insertBehind hins hfresh
  obtain rfl := Option.some.inj hadd
  exact hnull

section

variable [DecidableEq D]

theorem removeLoop_frees {value : Option D} {fuel : Nat} (h : removeLoop value fuel s a = some s') : Frees s s' := by
  induction fuel generalizing s a with
  | zero => cases h
  | succ fuel ih =>
      -- The loop goes on from a list that is `s`, or `s` without a node.
      have hrest : ∀ {s₁ : CList D}, Frees s s₁ → (do
          let n ← s₁.nodeNext a
          let node ← s₁.heap n
          if node.isSentinel then some s₁ else removeLoop value fuel s₁ n) = some s' → Frees s s' := by
        intro s₁ hfirst h
        obtain ⟨b, -, h⟩ := Option.bind_eq_some_iff.1 h
        obtain ⟨node, -, h⟩ := Option.bind_eq_some_iff.1 h
        split at h
        · exact Option.some.inj h ▸ hfirst
        · exact hfirst.trans (ih h)
      obtain ⟨next, -, h⟩ := Option.bind_eq_some_iff.1 h
      obtain ⟨node, -, h⟩ := Option.bind_eq_some_iff.1 h
      dsimp only at h
      split at h
      · obtain ⟨s₁, hunlink, h⟩ := Option.bind_eq_some_iff.1 h
        exact hrest (unlinkBehind_frees hunlink) h
      · exact hrest (.refl s) h

/-- No call writes over the data of the front sentinel. -/
theorem FrontNull.perform {op : ListOp D} {result : Option (Option D)} (h : s.FrontNull) (hperm : Permitted s op)
    (hop : CUtil.perform s op = some (s', result)) (hchained : s'.Chained back nodes xs) : s'.FrontNull := by
  obtain ⟨r, hr, heq⟩ : ∃ r : CList D × Option (Option D), CUtil.perform s op = some r ∧ r.1 = s' := ⟨_, hop, rfl⟩
  cases op with
  | add a x =>
      obtain ⟨s₁, hadd, rfl⟩ := Option.map_eq_some_iff.1 hr
      exact heq ▸ h.listAdd hadd (Option.isNone_iff_eq_none.1 hperm)
  | append a x =>
      obtain ⟨s₁, hins, rfl⟩ := Option.map_eq_some_iff.1 hr
      exact heq ▸ h.listInsert hins (Option.isNone_iff_eq_none.1 hperm)
  | insert a n x =>
      obtain ⟨s₁, hins, rfl⟩ := Option.map_eq_some_iff.1 hr
      exact heq ▸ h.listInsert hins (Option.isNone_iff_eq_none.1 hperm.1)
  | remove n =>
      obtain ⟨s₁, hremove, rfl⟩ := Option.map_eq_some_iff.1 hr
      exact h.of_frees (heq ▸ listRemove_frees hremove) hchained
  | get n =>
      obtain ⟨⟨y, s₁⟩, hget, rfl⟩ := Option.map_eq_some_iff.1 hr
      obtain ⟨q, rfl⟩ := listGet_eq hget
      exact heq ▸ h
  | removeValue value =>
      obtain ⟨s₁, hremove, rfl⟩ := Option.map_eq_some_iff.1 hr
      -- The loop starts with the cursor put on the front sentinel.
      have hfrees := removeLoop_frees hremove
      have hmoved : Frees s { s with curpos := 0, cursor := s.frontSentinel } := ⟨rfl, fun _ => .inl rfl⟩
      exact h.of_frees (heq ▸ hmoved.trans hfrees) hchained

end

/-! ## Lookups -/

/-- A chain whose cursor, on an element or on a sentinel, is where its position says. -/
structure Stands (s : CList D) (back : Addr) (nodes : List Addr) (xs : List (Option D)) : Prop
    extends Chained s back nodes xs where
  size_eq : s.size = nodes.length
  cursor_eq : (s.frontSentinel :: (nodes ++ [back]))[s.curpos]? = some s.cursor
  curpos_lt : s.curpos < 2 ^ 32
  front_null : s.FrontNull

theorem Represents.stands (h : s.Represents back nodes xs) (hnull : s.FrontNull) : s.Stands back nodes xs :=
  ⟨h.toChained, h.size_eq, getElem?_chain h.cursor_eq, h.curpos_lt, hnull⟩

theorem Stands.length_xs (h : s.Stands back nodes xs) : s.size = xs.length := h.size_eq.trans h.length_eq

/-- What the nodes of a chain hold, the sentinels included. -/
theorem Stands.content_eq (h : s.Stands back nodes xs) (hp : (s.frontSentinel :: (nodes ++ [back]))[n]? = some p) :
    ∃ d sentinel, s.content p = some (d, sentinel) ∧ (n ≤ xs.length → (none :: xs)[n]? = some d) := by
  cases n with
  | zero =>
      obtain rfl := Option.some.inj hp
      exact ⟨none, true, h.front_null, fun _ => rfl⟩
  | succ n =>
      rw [List.getElem?_cons_succ] at hp
      by_cases hn : n < nodes.length
      · rw [List.getElem?_append_left hn, List.getElem?_eq_getElem hn] at hp
        obtain rfl := Option.some.inj hp
        have hn' : n < xs.length := h.length_eq ▸ hn
        exact ⟨xs[n], false, h.data.get hn hn', fun _ => List.getElem?_eq_getElem hn'⟩
      · obtain ⟨d, hd⟩ := h.back_sentinel
        have hmem : p = back := by
          rw [List.getElem?_append_right (Nat.le_of_not_lt hn)] at hp
          exact List.mem_singleton.1 (List.mem_of_getElem? hp)
        have hout : ¬ n + 1 ≤ xs.length := fun hle => hn (h.length_eq ▸ hle)
        exact ⟨d, true, hmem ▸ hd, fun hle => absurd hle hout⟩

/-- A lookup at any position, those of the sentinels included. -/
theorem Stands.listGet (h : s.Stands back nodes xs) (hn : n ≤ xs.length + 1) (hlt : n < 2 ^ 32) :
    ∃ d s', s.listGet n = some (d, s') ∧ s'.Stands back nodes xs ∧
      (n ≤ xs.length → (none :: xs)[n]? = some d) := by
  have hlen : n < (s.frontSentinel :: (nodes ++ [back])).length := by
    rw [List.length_cons, List.length_append, List.length_singleton, h.length_eq]
    exact Nat.lt_succ_of_le hn
  have hp := List.getElem?_eq_getElem hlen
  obtain ⟨d, sentinel, hd, hdata⟩ := h.content_eq hp
  obtain ⟨next, hheap⟩ := exists_node hd
  refine ⟨d, { s with cursor := (s.frontSentinel :: (nodes ++ [back]))[n], curpos := n }, ?_,
    ⟨⟨h.linked, h.nodup, h.data, h.front_sentinel, h.back_sentinel⟩, h.size_eq, hp, hlt, h.front_null⟩, hdata⟩
  unfold CList.listGet
  rw [h.toChained.listGetNode h.cursor_eq hp, Option.bind_eq_bind, Option.bind_some]
  dsimp only
  rw [hheap]
  rfl

/-- Lookups one after the other. -/
def lookups (s : CList D) (positions : List Nat) : Option (CList D) :=
  positions.foldlM (fun s n => (s.listGet n).map Prod.snd) s

/-- Whatever lookups are made, the list stands for the same sequence. -/
theorem Stands.lookups {positions : List Nat} (h : s.Stands back nodes xs)
    (hpositions : ∀ n ∈ positions, n ≤ xs.length + 1 ∧ n < 2 ^ 32) :
    ∃ s', s.lookups positions = some s' ∧ s'.Stands back nodes xs := by
  induction positions generalizing s with
  | nil => exact ⟨s, rfl, h⟩
  | cons n positions ih =>
      obtain ⟨hfirst, hrest⟩ := List.forall_mem_cons.1 hpositions
      obtain ⟨d, s₁, hget, h₁, -⟩ := h.listGet hfirst.1 hfirst.2
      obtain ⟨s', hlater, h'⟩ := ih h₁ hrest
      refine ⟨s', ?_, h'⟩
      rw [CList.lookups, List.foldlM_cons, hget]
      exact hlater

end CList

/-! ## Lists that calls have built -/

section

variable [DecidableEq D] {front back : Addr} {h : History (Outcome D) (ListOp D)} {o : Outcome D}

/-- The list stands for the sequence of the calls, and its front sentinel has no data. -/
def Built (back : Addr) (h : History (Outcome D) (ListOp D)) : Outcome D → Prop
  | none => False
  | some (s, result) => Refines back h s result ∧ s.FrontNull

theorem built_step {o' : Outcome D} {op : ListOp D} (hbuilt : Built back h o) (hok : OpOk h o op)
    (hs : Step o op o') : Built back ((o, op) :: h) o' := by
  cases o with
  | none => exact hbuilt.elim
  | some r =>
      obtain ⟨s, result⟩ := r
      unfold Step stepFn at hs
      dsimp only at hs
      split at hs
      · next hperm =>
          obtain rfl := Option.some.inj hs
          have hrefines := (Refines.step hbuilt.1 hperm).2 hok
          cases hop : perform s op with
          | none =>
              rw [hop] at hrefines
              exact hrefines.elim
          | some r =>
              rw [hop] at hrefines
              obtain ⟨nodes, hrep⟩ := hrefines.exists_nodes
              exact ⟨hrefines, hbuilt.2.perform hperm hop hrep.toChained⟩
      · cases hs

/-- After the calls of a run, and after any lookups then, the list stands for the sequence of the calls. -/
theorem stands_of_run (hne : front ≠ back)
    (hrun : Run Step (some (CList.listNew front back, none) : Outcome D) h o) (hok : StepsMeet OpOk h) :
    ∃ s result nodes, o = some (s, result) ∧ s.Stands back nodes (seqAfter h) := by
  have hstart : Built back [] (some (CList.listNew front back, none) : Outcome D) :=
    ⟨refines_new hne, CList.frontNull_new front back⟩
  have hbuilt : Built back h o :=
    (hrun.along_of_stepsMeet hstart (fun hb hop hs => built_step hb hop hs) id hok).last
  cases o with
  | none => exact hbuilt.elim
  | some r =>
      obtain ⟨s, result⟩ := r
      obtain ⟨nodes, hrep⟩ := hbuilt.1.exists_nodes
      exact ⟨s, result, nodes, rfl, hrep.stands hbuilt.2⟩

/-- Every sequence is one that a list stands for. -/
theorem CList.exists_stands (xs : List (Option D)) : ∃ (s : CList D) (nodes : List Addr), s.Stands 1 nodes xs := by
  obtain ⟨h, s, -, hrun, hok, rfl, -⟩ := exists_run_of_adds xs
  obtain ⟨s', result, nodes, heq, hstands⟩ := stands_of_run Nat.zero_ne_one hrun hok
  obtain ⟨rfl, -⟩ := Prod.mk.inj (Option.some.inj heq)
  exact ⟨s, nodes, hstands⟩

end

end CUtil
end Raiezau
