import Mathlib.Data.List.Nodup
import Mathlib.Data.List.Basic

/-!
# TwoWay — cells that are linked to both neighbours

`next` and `prev` are the pointers of the cells, and `head` points to the first one.  A list of cells is
`TwoWay` when the pointers lead through it in both directions and end at its ends.  Read backwards it is one
again, so what is shown of one end holds of the other.
-/

namespace Raiezau
namespace Memory

universe u

variable {α : Type u}

/-- Each cell points to the one behind it, and the last one to none. -/
def Leads (next : α → Option α) (l : List α) : Prop := ∀ pre a post, l = pre ++ a :: post → next a = post.head?

theorem Leads.cons_iff {next : α → Option α} {a : α} {l : List α} :
    Leads next (a :: l) ↔ next a = l.head? ∧ Leads next l := by
  constructor
  · intro h
    exact ⟨h [] a l rfl, fun pre b post heq => h (a :: pre) b post (congrArg (a :: ·) heq)⟩
  · rintro ⟨ha, h⟩ pre b post heq
    cases pre with
    | nil =>
        obtain ⟨rfl, rfl⟩ := List.cons.inj heq
        exact ha
    | cons c pre => exact h pre b post (List.cons.inj heq).2

theorem Leads.congr {next next' : α → Option α} {l : List α} (h : Leads next l)
    (hsame : ∀ a ∈ l, next' a = next a) : Leads next' l := by
  intro pre a post heq
  rw [hsame a (heq ▸ List.mem_append_right _ List.mem_cons_self), h pre a post heq]

structure TwoWay (next prev : α → Option α) (head : Option α) (l : List α) : Prop where
  nodup : l.Nodup
  head_eq : head = l.head?
  next_eq : ∀ {pre a post}, l = pre ++ a :: post → next a = post.head?
  prev_eq : ∀ {pre a post}, l = pre ++ a :: post → prev a = pre.getLast?

namespace TwoWay

variable {next prev next' prev' : α → Option α} {head head' : Option α} {l pre post : List α} {a b : α}

theorem nil : TwoWay next prev none [] := by
  refine ⟨List.nodup_nil, rfl, ?_, ?_⟩ <;>
    · intro pre a post heq
      exact absurd heq.symm (List.append_ne_nil_of_right_ne_nil _ (List.cons_ne_nil _ _))

theorem single (hnext : next a = none) (hprev : prev a = none) : TwoWay next prev (some a) [a] := by
  refine ⟨List.nodup_singleton a, rfl, ?_, ?_⟩ <;>
    · intro pre b post heq
      obtain ⟨rfl, rfl, rfl⟩ : pre = [] ∧ b = a ∧ post = [] := by
        cases pre with
        | nil => simpa [eq_comm] using heq
        | cons c pre => simp at heq
      assumption

theorem leads (h : TwoWay next prev head l) : Leads next l := fun _ _ _ heq => h.next_eq heq

/-- The list read from its end. -/
theorem reverse (h : TwoWay next prev head l) : TwoWay prev next l.getLast? l.reverse := by
  have hsplit : ∀ {pre : List α} {a : α} {post : List α}, l.reverse = pre ++ a :: post →
      l = post.reverse ++ a :: pre.reverse := by
    intro pre a post heq
    have hrev := congrArg List.reverse heq
    simpa using hrev
  refine ⟨List.nodup_reverse.2 h.nodup, by simp, fun heq => ?_, fun heq => ?_⟩
  · rw [h.prev_eq (hsplit heq)]
    simp
  · rw [h.next_eq (hsplit heq)]
    simp

/-- The cells are linked as they were. -/
theorem congr (h : TwoWay next prev head l) (hnext : ∀ b ∈ l, next' b = next b)
    (hprev : ∀ b ∈ l, prev' b = prev b) : TwoWay next' prev' head l := by
  have hmem : ∀ {pre : List α} {b : α} {post : List α}, l = pre ++ b :: post → b ∈ l := by
    rintro pre b post rfl
    exact List.mem_append_right _ List.mem_cons_self
  refine ⟨h.nodup, h.head_eq, fun heq => ?_, fun heq => ?_⟩
  · rw [hnext _ (hmem heq), h.next_eq heq]
  · rw [hprev _ (hmem heq), h.prev_eq heq]

/-- A cell is put in front. -/
theorem push (h : TwoWay next prev head l) (ha : a ∉ l) (hnext : next' a = head) (hprev : prev' a = none)
    (hhead : ∀ b, head = some b → prev' b = some a) (hnexts : ∀ b ∈ l, next' b = next b)
    (hprevs : ∀ b ∈ l, head ≠ some b → prev' b = prev b) : TwoWay next' prev' (some a) (a :: l) := by
  refine ⟨List.nodup_cons.2 ⟨ha, h.nodup⟩, rfl, ?_, ?_⟩
  · intro pre b post heq
    cases pre with
    | nil =>
        obtain ⟨rfl, rfl⟩ := List.cons.inj heq
        exact hnext.trans h.head_eq
    | cons c pre =>
        have hl : l = pre ++ b :: post := (List.cons.inj heq).2
        rw [hnexts b (hl ▸ List.mem_append_right _ List.mem_cons_self), h.next_eq hl]
  · intro pre b post heq
    cases pre with
    | nil =>
        obtain ⟨rfl, rfl⟩ := List.cons.inj heq
        exact hprev
    | cons c pre =>
        obtain ⟨rfl, hl⟩ := List.cons.inj heq
        have hb : b ∈ l := hl ▸ List.mem_append_right _ List.mem_cons_self
        cases pre with
        | nil =>
            refine hhead b ?_
            rw [h.head_eq, hl]
            rfl
        | cons d pre =>
            have hne : head ≠ some b := by
              rintro rfl
              have hd : b = d := Option.some.inj (h.head_eq.trans (congrArg List.head? hl))
              have hnodup := h.nodup
              rw [hl, hd] at hnodup
              exact (List.nodup_cons.1 hnodup).1 (List.mem_append_right _ List.mem_cons_self)
            rw [hprevs b hb hne, h.prev_eq hl, List.getLast?_cons_cons]

/-- A cell is put at the end. -/
theorem append (h : TwoWay next prev head l) (ha : a ∉ l) (hnext : next' a = none)
    (hprev : prev' a = l.getLast?) (hlast : ∀ b, l.getLast? = some b → next' b = some a)
    (hprevs : ∀ b ∈ l, prev' b = prev b) (hnexts : ∀ b ∈ l, l.getLast? ≠ some b → next' b = next b) :
    TwoWay next' prev' (l ++ [a]).head? (l ++ [a]) := by
  have hpush : TwoWay prev' next' (some a) (a :: l.reverse) :=
    h.reverse.push (by simpa using ha) hprev hnext hlast (fun b hb => hprevs b (List.mem_reverse.1 hb)) (fun b hb => hnexts b (List.mem_reverse.1 hb))
  have hback := hpush.reverse
  rw [List.reverse_cons, List.reverse_reverse] at hback
  rwa [hback.head_eq] at hback

/-- Where a cell points after another was taken out. -/
theorem next_unlink (h : TwoWay next prev head (pre ++ a :: post))
    (hlast : ∀ b, pre.getLast? = some b → next' b = post.head?)
    (hnexts : ∀ b, b ∈ pre ++ post → pre.getLast? ≠ some b → next' b = next b) {pre' post' : List α}
    (heq : pre ++ post = pre' ++ b :: post') : next' b = post'.head? := by
  have hnodup : (pre ++ post).Nodup :=
    h.nodup.sublist (List.Sublist.append_left (List.sublist_cons_self a post) pre)
  have hb : b ∈ pre ++ post := heq ▸ List.mem_append_right _ List.mem_cons_self
  rcases List.append_eq_append_iff.1 heq with ⟨c, hpre, hpost⟩ | ⟨c, hpre, hpost⟩
  · -- The cell is behind the one taken out.
    have hne : pre.getLast? ≠ some b := by
      intro hlast'
      have hmem : b ∈ pre := List.mem_of_getLast? hlast'
      have hmem' : b ∈ post := hpost ▸ List.mem_append_right _ List.mem_cons_self
      exact (List.nodup_append.1 hnodup).2.2 b hmem b hmem' rfl
    rw [hnexts b hb hne]
    have hcut : pre ++ a :: post = (pre ++ a :: c) ++ b :: post' := by rw [hpost]; simp
    exact h.next_eq hcut
  · cases c with
    | nil =>
        have hpost' : post = b :: post' := by simpa using hpost.symm
        have hne : pre.getLast? ≠ some b := by
          intro hlast'
          have hmem : b ∈ pre := List.mem_of_getLast? hlast'
          exact (List.nodup_append.1 hnodup).2.2 b hmem b (hpost' ▸ List.mem_cons_self) rfl
        rw [hnexts b hb hne]
        have hcut : pre ++ a :: post = (pre ++ [a]) ++ b :: post' := by rw [hpost']; simp
        exact h.next_eq hcut
    | cons d c =>
        obtain ⟨rfl, rfl⟩ : b = d ∧ post' = c ++ post := by simpa using hpost
        cases c with
        | nil => exact hlast b (by rw [hpre, List.getLast?_concat])
        | cons e c =>
            have hne : pre.getLast? ≠ some b := by
              intro hlast'
              have hmem : b ∈ e :: c := by
                rw [hpre, List.getLast?_append_cons, List.getLast?_cons_cons] at hlast'
                exact List.mem_of_getLast? hlast'
              have hnodup' := (List.nodup_append.1 hnodup).1
              rw [hpre] at hnodup'
              exact (List.nodup_cons.1 (List.nodup_append.1 hnodup').2.1).1 hmem
            rw [hnexts b hb hne]
            have hcut : pre ++ a :: post = pre' ++ b :: (e :: c ++ a :: post) := by rw [hpre]; simp
            exact (h.next_eq hcut).trans rfl

/-- A cell is taken out. -/
theorem unlink (h : TwoWay next prev head (pre ++ a :: post))
    (hlast : ∀ b, pre.getLast? = some b → next' b = post.head?)
    (hfirst : ∀ b, post.head? = some b → prev' b = pre.getLast?)
    (hnexts : ∀ b ∈ pre ++ post, pre.getLast? ≠ some b → next' b = next b)
    (hprevs : ∀ b ∈ pre ++ post, post.head? ≠ some b → prev' b = prev b) :
    TwoWay next' prev' (pre ++ post).head? (pre ++ post) := by
  have hnodup : (pre ++ post).Nodup :=
    h.nodup.sublist (List.Sublist.append_left (List.sublist_cons_self a post) pre)
  refine ⟨hnodup, rfl, fun heq => h.next_unlink hlast hnexts heq, ?_⟩
  intro pre' b post' heq
  have hrev : TwoWay prev next (pre ++ a :: post).getLast? (post.reverse ++ a :: pre.reverse) := by
    simpa using h.reverse
  have hcut : post.reverse ++ pre.reverse = post'.reverse ++ b :: pre'.reverse := by
    simpa using congrArg List.reverse heq
  have hprev : prev' b = pre'.reverse.head? :=
    hrev.next_unlink (by simpa using hfirst) (by simpa [or_comm] using hprevs) hcut
  simpa using hprev

theorem mem_of_head (h : TwoWay next prev head l) (ha : head = some a) : a ∈ l :=
  List.mem_of_mem_head? (h.head_eq ▸ ha)

end TwoWay

end Memory
end Raiezau
