import Mathlib.Algebra.Group.Nat.Defs
import Raiezau.Memory.Chain
import Raiezau.Memory.Heap
import Raiezau.Machine.Fold

/-!
# LinkedList — the lists of `cutil/list.c`

A list is a chain of nodes between two sentinels, with a cursor: the node that the last lookup ended at, and
its position.  Positions are `unsigned int`, of 32 bits.  A node is at the address that `malloc` returned for
it, which may be one that was freed before; a call that reads a freed node has no result.

The mutex and the function that frees the elements are left out.
-/

namespace Raiezau
namespace CUtil

open Memory Machine

variable {D : Type}

/-! ## Model -/

/-- A node.  The data is a pointer, and `node_new` does not set `next`. -/
structure ListNode (D : Type) where
  data : Option D
  next : Option Addr
  isSentinel : Bool

/-- The list, and the memory its nodes are in. -/
structure CList (D : Type) where
  heap : Addr → Option (ListNode D)
  frontSentinel : Addr
  cursor : Addr
  size : Nat
  curpos : Nat

/-- An `unsigned int`. -/
def u32 (n : Nat) : Nat := n % 2 ^ 32

namespace CList

/-- Memory with a node at an address, or nothing there. -/
def store (s : CList D) (a : Addr) (node : Option (ListNode D)) : CList D :=
  { s with heap := Function.update s.heap a node }

def nodeNew (s : CList D) (a : Addr) (data : Option D) : CList D := s.store a (some ⟨data, none, false⟩)

def nodeNext (s : CList D) (a : Addr) : Option Addr := (s.heap a).bind ListNode.next

def nodeSetNext (s : CList D) (a next : Addr) : Option (CList D) :=
  (s.heap a).map fun node => s.store a (some { node with next := some next })

def nodeFree (s : CList D) (a : Addr) : CList D := s.store a none

/-- `list_new`, with the addresses of the two sentinels. -/
def listNew (front back : Addr) : CList D :=
  { heap := Function.update
      (Function.update (fun _ => none) back (some ⟨none, none, true⟩)) front (some ⟨none, some back, true⟩)
    frontSentinel := front
    cursor := front
    size := 0
    curpos := 0 }

def listGetNode (s : CList D) (n : Nat) : Option (Addr × CList D) := do
  let node ←
    if s.curpos ≤ n then follow s.nodeNext (n - s.curpos) s.cursor
    else follow s.nodeNext n s.frontSentinel
  some (node, { s with cursor := node, curpos := n })

def listGet (s : CList D) (n : Nat) : Option (Option D × CList D) := do
  let (node, s) ← s.listGetNode n
  let node ← s.heap node
  some (node.data, s)

/-- The new node is linked behind `previous`: the end of `list_add` and of `list_insert`. -/
def insertBehind (s : CList D) (previous a : Addr) (element : Option D) : Option (CList D) := do
  let s := s.nodeNew a element
  let next ← s.nodeNext previous
  let s ← s.nodeSetNext a next
  let s ← s.nodeSetNext previous a
  some { s with size := s.size + 1 }

def listAdd (s : CList D) (a : Addr) (element : Option D) : Option (CList D) := do
  let s ← s.insertBehind s.frontSentinel a element
  some { s with curpos := if s.curpos ≠ 0 then u32 (s.curpos + 1) else s.curpos }

def listInsert (s : CList D) (a : Addr) (n : Nat) (element : Option D) : Option (CList D) := do
  let (previous, s) ← s.listGetNode (u32 (n + (2 ^ 32 - 1)))
  s.insertBehind previous a element

/-- The position is computed as an `int` and passed on as an `unsigned int`. -/
def listAppend (s : CList D) (a : Addr) (element : Option D) : Option (CList D) :=
  s.listInsert a (u32 (s.size + 1)) element

/-- The node `tmp` behind `previous` is taken out of the chain and freed. -/
def unlinkBehind (s : CList D) (previous tmp : Addr) : Option (CList D) := do
  let next ← s.nodeNext tmp
  let s ← s.nodeSetNext previous next
  some { s.nodeFree tmp with size := s.size - 1 }

def listRemove (s : CList D) (n : Nat) : Option (CList D) := do
  let (previous, s) ← s.listGetNode (u32 (n + (2 ^ 32 - 1)))
  let tmp ← s.nodeNext previous
  s.unlinkBehind previous tmp

variable [DecidableEq D]

/-- The loop of `list_remove_value`, from the node `n` on.  It ends at the back sentinel at the latest. -/
def removeLoop (value : Option D) : Nat → CList D → Addr → Option (CList D)
  | 0, _, _ => none
  | fuel + 1, s, n => do
      let next ← s.nodeNext n
      let node ← s.heap next
      let s ← if node.isSentinel = false ∧ node.data = value then s.unlinkBehind n next else some s
      let n ← s.nodeNext n
      let node ← s.heap n
      if node.isSentinel then some s else removeLoop value fuel s n

def listRemoveValue (s : CList D) (value : Option D) : Option (CList D) :=
  removeLoop value (s.size + 1) { s with curpos := 0, cursor := s.frontSentinel } s.frontSentinel

end CList

/-! ## The plain sequence -/

/-- What `list_append` leaves: the position of the new element is counted modulo `2 ^ 32`. -/
def listAppended {α : Type} (xs : List α) (x : α) : List α :=
  xs.take (xs.length % 2 ^ 32) ++ x :: xs.drop (xs.length % 2 ^ 32)

theorem listAppended_of_lt {α : Type} {xs : List α} (x : α) (hlt : xs.length < 2 ^ 32) :
    listAppended xs x = xs ++ [x] := by
  rw [listAppended, Nat.mod_eq_of_lt hlt, List.take_length, List.drop_length]

/-- What the loop of `list_remove_value` leaves: the element behind a removed one is not looked at. -/
def removeValue [DecidableEq D] (value : Option D) : List (Option D) → List (Option D)
  | [] => []
  | [x] => if x = value then [] else [x]
  | x :: y :: xs => if x = value then y :: removeValue value xs else x :: removeValue value (y :: xs)

/-- What it leaves of the elements behind one that is kept or removed. -/
def keepFirst [DecidableEq D] (value : Option D) : List (Option D) → List (Option D)
  | [] => []
  | x :: xs => x :: removeValue value xs

theorem removeValue_cons [DecidableEq D] (value x : Option D) (xs : List (Option D)) :
    removeValue value (x :: xs) =
      if x = value then keepFirst value xs else keepFirst value (x :: xs) := by
  cases xs with
  | nil => rfl
  | cons y xs => rfl

/-! ## Nodes -/

namespace CList

variable {s s' : CList D} {p q a b back : Addr} {x : Option D} {n₁ n₂ nodes : List Addr}
  {x₁ x₂ xs : List (Option D)} {n fuel : Nat}

/-- The data of a live node, and whether it is a sentinel. -/
def content (s : CList D) (a : Addr) : Option (Option D × Bool) :=
  (s.heap a).map fun node => (node.data, node.isSentinel)

theorem nodeNext_store_self (node : Option (ListNode D)) :
    (s.store a node).nodeNext a = node.bind ListNode.next := by
  unfold nodeNext store
  dsimp only
  rw [Function.update_self]

theorem nodeNext_store_of_ne {node : Option (ListNode D)} (hb : b ≠ a) :
    (s.store a node).nodeNext b = s.nodeNext b := by
  unfold nodeNext store
  dsimp only
  rw [Function.update_of_ne hb]

theorem content_store_self (node : Option (ListNode D)) :
    (s.store a node).content a = node.map fun node => (node.data, node.isSentinel) := by
  unfold content store
  dsimp only
  rw [Function.update_self]

theorem content_store_of_ne {node : Option (ListNode D)} (hb : b ≠ a) :
    (s.store a node).content b = s.content b := by
  unfold content store
  dsimp only
  rw [Function.update_of_ne hb]

/-- What does not change when the nodes do. -/
structure SameHandle (s s' : CList D) : Prop where
  front_eq : s'.frontSentinel = s.frontSentinel
  cursor_eq : s'.cursor = s.cursor
  curpos_eq : s'.curpos = s.curpos

theorem SameHandle.trans {s'' : CList D} (h : SameHandle s s') (h' : SameHandle s' s'') :
    SameHandle s s'' :=
  ⟨h'.front_eq.trans h.front_eq, h'.cursor_eq.trans h.cursor_eq, h'.curpos_eq.trans h.curpos_eq⟩

theorem nodeSetNext_spec (hlive : s.content a ≠ none) :
    ∃ s', s.nodeSetNext a b = some s' ∧ s'.nodeNext a = some b ∧
      (∀ d, d ≠ a → s'.nodeNext d = s.nodeNext d) ∧ s'.content = s.content ∧ s'.size = s.size ∧
      SameHandle s s' := by
  obtain ⟨c, hc⟩ := Option.ne_none_iff_exists'.1 hlive
  obtain ⟨node, hnode, rfl⟩ := Option.map_eq_some_iff.1 hc
  refine ⟨s.store a (some { node with next := some b }), ?_, nodeNext_store_self _,
    fun d hd => nodeNext_store_of_ne hd, ?_, rfl, ⟨rfl, rfl, rfl⟩⟩
  · rw [nodeSetNext, hnode]
    rfl
  · funext d
    by_cases hd : d = a
    · rw [hd, content_store_self, hc]
      rfl
    · exact content_store_of_ne hd

theorem insertBehind_spec (hlive : s.content p ≠ none) (hne : p ≠ a) (hnext : s.nodeNext p = some q) :
    ∃ s', s.insertBehind p a x = some s' ∧ s'.nodeNext p = some a ∧ s'.nodeNext a = some q ∧
      (∀ d, d ≠ p → d ≠ a → s'.nodeNext d = s.nodeNext d) ∧ s'.content a = some (x, false) ∧
      (∀ d, d ≠ a → s'.content d = s.content d) ∧ s'.size = s.size + 1 ∧ SameHandle s s' := by
  have hself : (s.nodeNew a x).content a = some (x, false) := content_store_self _
  obtain ⟨s₁, hset₁, hnext₁, hsame₁, hcontent₁, hsize₁, hhandle₁⟩ :=
    nodeSetNext_spec (b := q) (show (s.nodeNew a x).content a ≠ none by rw [hself]; nofun)
  have hlive₁ : s₁.content p ≠ none := by
    rw [hcontent₁]
    exact fun h => hlive ((content_store_of_ne hne).symm.trans h)
  obtain ⟨s₂, hset₂, hnext₂, hsame₂, hcontent₂, hsize₂, hhandle₂⟩ := nodeSetNext_spec (b := a) hlive₁
  have hnext' : (s.nodeNew a x).nodeNext p = some q := (nodeNext_store_of_ne hne).trans hnext
  refine ⟨{ s₂ with size := s₂.size + 1 }, ?_, hnext₂, (hsame₂ a hne.symm).trans hnext₁, ?_, ?_, ?_,
    congrArg Nat.succ (hsize₂.trans hsize₁), ?_⟩
  · simp only [insertBehind, hnext', hset₁, hset₂, Option.bind_eq_bind, Option.bind_some]
  · intro d hdp hda
    exact (hsame₂ d hdp).trans ((hsame₁ d hda).trans (nodeNext_store_of_ne hda))
  · show s₂.content a = some (x, false)
    rw [hcontent₂, hcontent₁, hself]
  · intro d hda
    show s₂.content d = s.content d
    rw [hcontent₂, hcontent₁]
    exact content_store_of_ne hda
  · obtain ⟨hfront, hcursor, hcurpos⟩ := hhandle₁.trans hhandle₂
    exact ⟨hfront, hcursor, hcurpos⟩

theorem unlinkBehind_spec (hlive : s.content p ≠ none) (hne : p ≠ a) (hnext : s.nodeNext a = some q) :
    ∃ s', s.unlinkBehind p a = some s' ∧ s'.nodeNext p = some q ∧
      (∀ d, d ≠ p → d ≠ a → s'.nodeNext d = s.nodeNext d) ∧
      (∀ d, d ≠ a → s'.content d = s.content d) ∧ s'.size = s.size - 1 ∧ SameHandle s s' := by
  obtain ⟨s₁, hset, hnext₁, hsame, hcontent, hsize, hfront, hcursor, hcurpos⟩ :=
    nodeSetNext_spec (b := q) hlive
  refine ⟨{ s₁.nodeFree a with size := s₁.size - 1 }, ?_, (nodeNext_store_of_ne hne).trans hnext₁, ?_, ?_,
    congrArg (· - 1) hsize, ⟨hfront, hcursor, hcurpos⟩⟩
  · simp only [unlinkBehind, hnext, hset, Option.bind_eq_bind, Option.bind_some]
  · intro d hdp hda
    exact (nodeNext_store_of_ne hda).trans (hsame d hdp)
  · intro d hda
    exact (content_store_of_ne hda).trans (congrFun hcontent d)

/-! ## Chains of nodes -/

/-- The data nodes between the sentinels, and the elements in them. -/
structure Chained (s : CList D) (back : Addr) (nodes : List Addr) (xs : List (Option D)) : Prop where
  linked : Linked s.nodeNext (s.frontSentinel :: (nodes ++ [back]))
  nodup : (s.frontSentinel :: (nodes ++ [back])).Nodup
  data : List.Forall₂ (fun a x => s.content a = some (x, false)) nodes xs
  front_sentinel : ∃ d, s.content s.frontSentinel = some (d, true)
  back_sentinel : ∃ d, s.content back = some (d, true)

theorem chained_new (hne : p ≠ back) : Chained (listNew p back : CList D) back [] [] := by
  have hfront : (listNew p back : CList D).heap p = some ⟨none, some back, true⟩ :=
    Function.update_self ..
  have hback : (listNew p back : CList D).heap back = some ⟨none, none, true⟩ :=
    (Function.update_of_ne hne.symm ..).trans (Function.update_self ..)
  refine ⟨?_, ?_, .nil, ⟨none, ?_⟩, ⟨none, ?_⟩⟩
  · refine List.isChain_pair.2 ?_
    show ((listNew p back : CList D).heap p).bind ListNode.next = some back
    rw [hfront]
    rfl
  · simpa [listNew] using hne
  · show ((listNew p back : CList D).heap p).map _ = _
    rw [hfront]
    rfl
  · rw [content, hback]
    rfl

theorem Chained.live (h : s.Chained back nodes xs) (ha : a ∈ s.frontSentinel :: (nodes ++ [back])) :
    s.content a ≠ none := by
  rcases List.mem_cons.1 ha with rfl | ha
  · obtain ⟨d, hd⟩ := h.front_sentinel
    rw [hd]
    nofun
  · rcases List.mem_append.1 ha with ha | ha
    · obtain ⟨x, -, hx⟩ := exists_of_mem_left h.data ha
      rw [hx]
      nofun
    · obtain ⟨d, hd⟩ := h.back_sentinel
      rw [List.mem_singleton.1 ha, hd]
      nofun

theorem Chained.length_eq (h : s.Chained back nodes xs) : nodes.length = xs.length := h.data.length_eq

/-- The two parts of the elements are those of the two parts of the nodes. -/
theorem Chained.data_append (h : s.Chained back (n₁ ++ n₂) (x₁ ++ x₂)) (hlen : n₁.length = x₁.length) :
    List.Forall₂ (fun a x => s.content a = some (x, false)) n₁ x₁ ∧
      List.Forall₂ (fun a x => s.content a = some (x, false)) n₂ x₂ := by
  have htake := List.forall₂_take_append _ _ _ h.data
  have hdrop := List.forall₂_drop_append _ _ _ h.data
  rw [← hlen, List.take_left] at htake
  rw [← hlen, List.drop_left] at hdrop
  exact ⟨htake, hdrop⟩

/-- The chain, cut behind the node that the first part ends with. -/
theorem chain_eq {front : Addr} {pre rest : List Addr} (hpre : front :: n₁ = pre ++ [p])
    (hrest : n₂ ++ [back] = rest) : front :: (n₁ ++ n₂ ++ [back]) = pre ++ p :: rest := by
  calc front :: (n₁ ++ n₂ ++ [back])
      = (front :: n₁) ++ (n₂ ++ [back]) := by simp
    _ = pre ++ p :: rest := by rw [hpre, hrest, List.append_assoc, List.singleton_append]

theorem nodup_middle {pre post : List Addr} :
    (pre ++ p :: a :: post).Nodup ↔ a ∉ pre ++ p :: post ∧ (pre ++ p :: post).Nodup := by
  have hmid : List.Perm ((pre ++ [p]) ++ a :: post) (a :: ((pre ++ [p]) ++ post)) := List.perm_middle
  rw [List.append_assoc, List.append_assoc] at hmid
  exact hmid.nodup_iff.trans List.nodup_cons

/-- What the node that the first part ends with points to. -/
theorem Chained.next_eq (h : s.Chained back (n₁ ++ n₂) xs) (hp : (s.frontSentinel :: n₁).getLast? = some p) :
    s.nodeNext p = (n₂ ++ [back]).head? := by
  obtain ⟨pre, hpre⟩ := List.getLast?_eq_some_iff.1 hp
  obtain ⟨q, post, hpost⟩ := List.exists_cons_of_ne_nil (show n₂ ++ [back] ≠ [] by simp)
  have hlinked := h.linked
  rw [chain_eq hpre hpost] at hlinked
  rw [hlinked.next_eq, hpost, List.head?_cons]

/-- A changed chain is one where the nodes, and what is in them, are as before. -/
theorem Chained.of_content (h : s.Chained back nodes xs) {nodes' : List Addr} {xs' : List (Option D)}
    (hhandle : SameHandle s s') (hlinked : Linked s'.nodeNext (s.frontSentinel :: (nodes' ++ [back])))
    (hnodup : (s.frontSentinel :: (nodes' ++ [back])).Nodup)
    (hsame : s'.content s.frontSentinel = s.content s.frontSentinel ∧ s'.content back = s.content back)
    (hdata : List.Forall₂ (fun a x => s'.content a = some (x, false)) nodes' xs') :
    s'.Chained back nodes' xs' := by
  rw [← hhandle.front_eq] at hlinked hnodup
  refine ⟨hlinked, hnodup, hdata, ?_, ?_⟩
  · obtain ⟨d, hd⟩ := h.front_sentinel
    exact ⟨d, by rw [hhandle.front_eq, hsame.1, hd]⟩
  · obtain ⟨d, hd⟩ := h.back_sentinel
    exact ⟨d, hsame.2.trans hd⟩

/-- A node is put in behind the first part. -/
theorem Chained.insertBehind (h : s.Chained back (n₁ ++ n₂) (x₁ ++ x₂)) (hlen : n₁.length = x₁.length)
    (hp : (s.frontSentinel :: n₁).getLast? = some p) (hfresh : s.heap a = none) :
    ∃ s', s.insertBehind p a x = some s' ∧ s'.Chained back (n₁ ++ a :: n₂) (x₁ ++ x :: x₂) ∧
      s'.size = s.size + 1 ∧ SameHandle s s' := by
  obtain ⟨pre, hpre⟩ := List.getLast?_eq_some_iff.1 hp
  obtain ⟨q, post, hpost⟩ := List.exists_cons_of_ne_nil (show n₂ ++ [back] ≠ [] by simp)
  have hchain := chain_eq hpre hpost
  have hchain' : s.frontSentinel :: (n₁ ++ a :: n₂ ++ [back]) = pre ++ p :: a :: q :: post :=
    chain_eq hpre (congrArg (a :: ·) hpost)
  have hne : ∀ d ∈ s.frontSentinel :: (n₁ ++ n₂ ++ [back]), d ≠ a := by
    rintro d hd rfl
    refine h.live hd ?_
    rw [content, hfresh]
    rfl
  have hmem : p ∈ s.frontSentinel :: (n₁ ++ n₂ ++ [back]) := by
    rw [hchain]
    simp
  have hnext : s.nodeNext p = some q := by rw [h.next_eq hp, hpost, List.head?_cons]
  obtain ⟨s', hinsert, hp', ha', hsame, hcontent, hothers, hsize, hhandle⟩ :=
    insertBehind_spec (x := x) (h.live hmem) (hne p hmem) hnext
  obtain ⟨hone, htwo⟩ := h.data_append hlen
  have hnew : a ∉ pre ++ p :: q :: post := fun hin => hne a (hchain ▸ hin) rfl
  have hnodup := h.nodup
  have hlinked := h.linked
  rw [hchain] at hnodup hlinked
  refine ⟨s', hinsert, h.of_content hhandle ?_ ?_ ⟨?_, ?_⟩ ?_, hsize, hhandle⟩
  · rw [hchain']
    exact hlinked.insert hnodup hnew hp' ha' hsame
  · rw [hchain']
    exact nodup_middle.2 ⟨hnew, hnodup⟩
  · exact hothers _ (hne _ List.mem_cons_self)
  · exact hothers back (hne back (by simp))
  · refine List.rel_append (forall₂_imp_of_mem hone fun d hd y hy => ?_)
      (.cons hcontent (forall₂_imp_of_mem htwo fun d hd y hy => ?_))
    · exact (hothers d (hne d (by simp [hd]))).trans hy
    · exact (hothers d (hne d (by simp [hd]))).trans hy

/-- The node behind the first part is taken out. -/
theorem Chained.unlinkBehind (h : s.Chained back (n₁ ++ a :: n₂) (x₁ ++ x :: x₂))
    (hlen : n₁.length = x₁.length) (hp : (s.frontSentinel :: n₁).getLast? = some p) :
    ∃ s', s.unlinkBehind p a = some s' ∧ s'.Chained back (n₁ ++ n₂) (x₁ ++ x₂) ∧
      s'.size = s.size - 1 ∧ SameHandle s s' := by
  obtain ⟨pre, hpre⟩ := List.getLast?_eq_some_iff.1 hp
  obtain ⟨q, post, hpost⟩ := List.exists_cons_of_ne_nil (show n₂ ++ [back] ≠ [] by simp)
  have hchain : s.frontSentinel :: (n₁ ++ a :: n₂ ++ [back]) = pre ++ p :: a :: q :: post :=
    chain_eq hpre (congrArg (a :: ·) hpost)
  have hchain' := chain_eq hpre hpost
  have hlinked := h.linked
  have hnodup := h.nodup
  have hlive : s.content p ≠ none := h.live (by rw [hchain]; simp)
  rw [hchain] at hlinked hnodup
  have hnext : s.nodeNext a = some q := by
    have hshift : pre ++ p :: a :: q :: post = (pre ++ [p]) ++ a :: q :: post := by simp
    exact Linked.next_eq (hshift ▸ hlinked)
  obtain ⟨hout, hnodup'⟩ := nodup_middle.1 hnodup
  have hne : ∀ d ∈ s.frontSentinel :: (n₁ ++ n₂ ++ [back]), d ≠ a := by
    rintro d hd rfl
    exact hout (hchain' ▸ hd)
  obtain ⟨s', hunlink, hp', hsame, hothers, hsize, hhandle⟩ :=
    unlinkBehind_spec hlive (hne p (by rw [hchain']; simp)) hnext
  obtain ⟨hone, htwo⟩ := h.data_append hlen
  cases htwo with
  | cons _ htwo =>
      refine ⟨s', hunlink, h.of_content hhandle ?_ ?_ ⟨?_, ?_⟩ ?_, hsize, hhandle⟩
      · rw [hchain']
        exact hlinked.unlink hnodup hp' hsame
      · rw [hchain']
        exact hnodup'
      · exact hothers _ (hne _ List.mem_cons_self)
      · exact hothers back (hne back (by simp))
      · refine List.rel_append (forall₂_imp_of_mem hone fun d hd y hy => ?_)
          (forall₂_imp_of_mem htwo fun d hd y hy => ?_)
        · exact (hothers d (hne d (by simp [hd]))).trans hy
        · exact (hothers d (hne d (by simp [hd]))).trans hy

/-! ## `list_remove_value` -/

theorem exists_node {d : Option D} {sentinel : Bool} (h : s.content a = some (d, sentinel)) :
    ∃ next, s.heap a = some ⟨d, next, sentinel⟩ := by
  obtain ⟨⟨d', next, sentinel'⟩, hnode, hd⟩ := Option.map_eq_some_iff.1 h
  obtain ⟨rfl, rfl⟩ := Prod.mk.inj hd
  exact ⟨next, hnode⟩

/-- The node the second part starts with; the back sentinel where there is none. -/
theorem Chained.exists_next (h : s.Chained back (n₁ ++ n₂) (x₁ ++ x₂)) (hlen : n₁.length = x₁.length)
    (hp : (s.frontSentinel :: n₁).getLast? = some p) :
    ∃ a node, s.nodeNext p = some a ∧ s.heap a = some node ∧
      ((n₂ = [] ∧ x₂ = [] ∧ node.isSentinel = true) ∨
        ∃ n₂' x₂', n₂ = a :: n₂' ∧ x₂ = node.data :: x₂' ∧ node.isSentinel = false) := by
  have hnext := h.next_eq hp
  obtain ⟨-, htwo⟩ := h.data_append hlen
  cases htwo with
  | nil =>
      obtain ⟨d, hd⟩ := h.back_sentinel
      obtain ⟨next, hnode⟩ := exists_node hd
      exact ⟨back, _, hnext, hnode, .inl ⟨rfl, rfl, rfl⟩⟩
  | cons hx _ =>
      obtain ⟨next, hnode⟩ := exists_node hx
      exact ⟨_, _, hnext, hnode, .inr ⟨_, _, rfl, rfl, rfl⟩⟩

section

variable [DecidableEq D]

/-- The loop from the node that the first part ends with. -/
theorem Chained.removeLoop (h : s.Chained back (n₁ ++ n₂) (x₁ ++ x₂)) (hlen : n₁.length = x₁.length)
    (hp : (s.frontSentinel :: n₁).getLast? = some p) (hsize : s.size = n₁.length + n₂.length) {v : Option D}
    (hfuel : n₂.length < fuel) :
    ∃ s' n₂', CList.removeLoop v fuel s p = some s' ∧
      s'.Chained back (n₁ ++ n₂') (x₁ ++ CUtil.removeValue v x₂) ∧ s'.size = n₁.length + n₂'.length ∧
      SameHandle s s' := by
  induction fuel generalizing s n₁ n₂ x₁ x₂ p with
  | zero => exact absurd hfuel (Nat.not_lt_zero _)
  | succ fuel ih =>
      -- The loop goes on from the node behind `p`, once the node before that is dealt with.
      have hrest : ∀ {s : CList D} {n₂ : List Addr} {x₂ : List (Option D)},
          s.Chained back (n₁ ++ n₂) (x₁ ++ x₂) → (s.frontSentinel :: n₁).getLast? = some p →
          s.size = n₁.length + n₂.length → n₂.length ≤ fuel →
          ∃ s' n₂', (do
              let n ← s.nodeNext p
              let node ← s.heap n
              if node.isSentinel then some s else CList.removeLoop v fuel s n) = some s' ∧
            s'.Chained back (n₁ ++ n₂')
              (x₁ ++ keepFirst v x₂) ∧
            s'.size = n₁.length + n₂'.length ∧ SameHandle s s' := by
        intro s n₂ x₂ h hp hsize hfuel
        obtain ⟨a, node, hnext, hnode, ⟨rfl, rfl, hsent⟩ | ⟨n₂', x₂', rfl, rfl, hsent⟩⟩ :=
          h.exists_next hlen hp
        · refine ⟨s, [], ?_, h, hsize, ⟨rfl, rfl, rfl⟩⟩
          simp only [hnext, hnode, hsent, Option.bind_eq_bind, Option.bind_some, if_true]
        · have hcut : n₁ ++ a :: n₂' = (n₁ ++ [a]) ++ n₂' := by simp
          have hcut' : x₁ ++ node.data :: x₂' = (x₁ ++ [node.data]) ++ x₂' := by simp
          rw [hcut, hcut'] at h
          obtain ⟨s', n₃, hloop, hchained, hsize', hhandle⟩ := ih h (by simp [hlen])
            (by rw [← List.cons_append, List.getLast?_concat]) (by simp at hsize ⊢; omega)
            (by simp at hfuel; omega)
          rw [List.append_assoc, List.append_assoc] at hchained
          refine ⟨s', a :: n₃, ?_, hchained, by simp at hsize' ⊢; omega, hhandle⟩
          simp only [hnext, hnode, hsent, Option.bind_eq_bind, Option.bind_some]
          exact hloop
      obtain ⟨a, node, hnext, hnode, ⟨rfl, rfl, hsent⟩ | ⟨n₂', x₂', rfl, rfl, hsent⟩⟩ :=
        h.exists_next hlen hp
      · obtain ⟨s', n₂', hloop, hspec⟩ := hrest h hp hsize (Nat.zero_le _)
        refine ⟨s', n₂', ?_, hspec⟩
        simpa only [CList.removeLoop, hnext, hnode, hsent, Option.bind_eq_bind, Option.bind_some,
          Bool.true_eq_false, false_and, if_false] using hloop
      · rw [removeValue_cons]
        have hlen' : n₂'.length + 1 ≤ fuel := Nat.le_of_lt_succ hfuel
        split
        · next heq =>
            obtain ⟨s₁, hunlink, hchained, hsize₁, hhandle₁⟩ := h.unlinkBehind hlen hp
            rw [List.length_cons] at hsize
            obtain ⟨s', n₃, hloop, hchained', hsize', hhandle⟩ :=
              hrest hchained (by rw [hhandle₁.front_eq, hp]) (by omega) (by omega)
            refine ⟨s', n₃, ?_, hchained', hsize', hhandle₁.trans hhandle⟩
            simp only [CList.removeLoop, hnext, hnode, hsent, heq, Option.bind_eq_bind, Option.bind_some,
              and_self, if_true, hunlink]
            exact hloop
        · next hne =>
            obtain ⟨s', n₃, hloop, hspec⟩ := hrest h hp hsize hlen'
            refine ⟨s', n₃, ?_, hspec⟩
            simpa only [CList.removeLoop, hnext, hnode, hsent, hne, Option.bind_eq_bind, Option.bind_some,
              and_false, if_false] using hloop

end

end CList

end CUtil
end Raiezau
