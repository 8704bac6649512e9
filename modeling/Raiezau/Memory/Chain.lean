import Mathlib.Data.List.Chain

/-!
# Chain — cells that are linked by pointers

`next : α → Option α` is where a cell points.  A list of cells is `Linked` when each points to the one behind
it.  The rules follow the pointers along a chain, and put a cell in or take one out: only the cell before it
is pointed elsewhere.
-/

namespace Raiezau
namespace Memory

universe u

variable {α : Type u} {next next' : α → Option α} {l pre post : List α} {p q a x y : α} {i k : Nat}

/-- The cell that so many pointers lead to. -/
def follow (next : α → Option α) : Nat → α → Option α
  | 0, a => some a
  | k + 1, a => (next a).bind (follow next k)

/-- Each cell points to the one behind it. -/
def Linked (next : α → Option α) (l : List α) : Prop := l.IsChain fun x y => next x = some y

/-- Following from the start of a chain ends in it. -/
theorem Linked.follow_head (h : Linked next (a :: l)) (hk : (a :: l)[k]? = some y) :
    follow next k a = some y := by
  induction k generalizing a l with
  | zero => exact hk
  | succ k ih =>
      cases l with
      | nil => cases hk
      | cons b l =>
          obtain ⟨hab, hrest⟩ := List.isChain_cons_cons.1 h
          rw [follow, hab]
          exact ih hrest hk

/-- Following from a cell of a chain. -/
theorem Linked.follow_getElem (h : Linked next l) (hx : l[i]? = some x) (hy : l[i + k]? = some y) :
    follow next k x = some y := by
  have hi : i < l.length := (List.getElem?_eq_some_iff.1 hx).1
  have hsuffix : Linked next (l.drop i) := List.IsChain.drop h i
  have hhead : l.drop i = x :: l.drop (i + 1) := by
    rw [List.drop_eq_getElem_cons hi, (List.getElem?_eq_some_iff.1 hx).2]
  rw [hhead] at hsuffix
  refine hsuffix.follow_head ?_
  rw [← hhead, List.getElem?_drop]
  exact hy

/-- What a cell of a chain points to. -/
theorem Linked.next_eq (h : Linked next (pre ++ p :: q :: post)) : next p = some q :=
  (List.isChain_append_cons_cons.1 h).2.1

/-- A chain is determined by its first cell and its length. -/
theorem Linked.unique (h : Linked next l) {l' : List α} (h' : Linked next l') (hhead : l.head? = l'.head?)
    (hlen : l.length = l'.length) : l = l' := by
  induction l generalizing l' with
  | nil => exact (List.length_eq_zero_iff.1 hlen.symm).symm
  | cons a l ih =>
      cases l' with
      | nil => cases hhead
      | cons b l' =>
          obtain rfl : a = b := Option.some.inj hhead
          have hlen' : l.length = l'.length := Nat.succ.inj hlen
          refine congrArg (a :: ·) (ih (List.IsChain.tail h) (List.IsChain.tail h') ?_ hlen')
          cases l with
          | nil => rw [List.length_eq_zero_iff.1 hlen'.symm]
          | cons c l =>
              cases l' with
              | nil => cases hlen'
              | cons d l' =>
                  have hc : next a = some c := (List.isChain_cons_cons.1 h).1
                  have hd : next a = some d := (List.isChain_cons_cons.1 h').1
                  exact hc.symm.trans hd

/-- A chain whose cells point where they did. -/
theorem Linked.congr (h : Linked next l) (hsame : ∀ x ∈ l, next' x = next x) : Linked next' l :=
  List.IsChain.imp_of_mem_imp (fun x _ hx _ hxy => (hsame x hx).trans hxy) h

/-- Where the last cell points is not part of the chain. -/
theorem Linked.congr_init (h : Linked next (l ++ [q])) (hsame : ∀ x ∈ l, next' x = next x) :
    Linked next' (l ++ [q]) := by
  induction l with
  | nil => exact List.IsChain.singleton q
  | cons a l ih =>
      have htail : Linked next' (l ++ [q]) :=
        ih (List.IsChain.tail h) fun x hx => hsame x (List.mem_cons_of_mem a hx)
      have ha := hsame a List.mem_cons_self
      cases l with
      | nil => exact .cons_cons (ha.trans (List.isChain_cons_cons.1 h).1) htail
      | cons b l => exact .cons_cons (ha.trans (List.isChain_cons_cons.1 h).1) htail

/-- A cell is put between two. -/
theorem Linked.insert (h : Linked next (pre ++ p :: q :: post)) (hnodup : (pre ++ p :: q :: post).Nodup)
    (ha : a ∉ pre ++ p :: q :: post) (hp : next' p = some a) (hq : next' a = some q)
    (hsame : ∀ x, x ≠ p → x ≠ a → next' x = next x) : Linked next' (pre ++ p :: a :: q :: post) := by
  obtain ⟨hbefore, -, hafter⟩ := List.isChain_append_cons_cons.1 h
  have hne : ∀ x ∈ pre ++ p :: q :: post, x ≠ a := fun x hx hxa => ha (hxa ▸ hx)
  obtain ⟨-, hnodup', hdisj⟩ := List.nodup_append.1 hnodup
  have hpre : Linked next' (pre ++ [p]) := by
    refine Linked.congr_init hbefore fun x hx => ?_
    exact hsame x (hdisj x hx p List.mem_cons_self) (hne x (List.mem_append_left _ hx))
  have hpost : Linked next' (q :: post) := by
    refine Linked.congr hafter fun x hx => ?_
    refine hsame x (fun hxp => ?_) (hne x (List.mem_append_right _ (List.mem_cons_of_mem p hx)))
    exact (List.nodup_cons.1 hnodup').1 (hxp ▸ hx)
  exact List.isChain_append_cons_cons.2 ⟨hpre, hp, .cons_cons hq hpost⟩

/-- A cell is taken out. -/
theorem Linked.unlink (h : Linked next (pre ++ p :: a :: q :: post))
    (hnodup : (pre ++ p :: a :: q :: post).Nodup) (hp : next' p = some q)
    (hsame : ∀ x, x ≠ p → x ≠ a → next' x = next x) : Linked next' (pre ++ p :: q :: post) := by
  obtain ⟨hbefore, -, hrest⟩ := List.isChain_append_cons_cons.1 h
  obtain ⟨-, hafter⟩ := List.isChain_cons_cons.1 hrest
  obtain ⟨-, hnodup', hdisj⟩ := List.nodup_append.1 hnodup
  obtain ⟨hpnot, hnodup''⟩ := List.nodup_cons.1 hnodup'
  have hpre : Linked next' (pre ++ [p]) := by
    refine Linked.congr_init hbefore fun x hx => ?_
    exact hsame x (hdisj x hx p List.mem_cons_self)
      (hdisj x hx a (List.mem_cons_of_mem p List.mem_cons_self))
  have hpost : Linked next' (q :: post) := by
    refine Linked.congr hafter fun x hx => hsame x (fun hxp => ?_) fun hxa => ?_
    · exact hpnot (List.mem_cons_of_mem a (hxp ▸ hx))
    · exact (List.nodup_cons.1 hnodup'').1 (hxa ▸ hx)
  exact List.isChain_append_cons_cons.2 ⟨hpre, hp, hpost⟩

end Memory
end Raiezau
