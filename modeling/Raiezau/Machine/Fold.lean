import Mathlib.Data.List.Basic
import Mathlib.Data.List.Forall2

/-!
# Fold — folds that may fail, folds that forget, and lists related element by element

Rules for `List.foldlM` in `Option`: what holds between two elements of the list may speak of the elements
done so far.
-/

namespace Raiezau
namespace Machine

universe u v

variable {α : Type u} {σ : Type v} {g : σ → α → Option σ} {l : List α} {s s' : σ}

/-- An invariant of the elements done and the state they lead to. -/
@[elab_as_elim]
theorem foldlM_done {P : List α → σ → Prop} (hinit : P [] s)
    (hstep : ∀ {done rest a s s'}, l = done ++ a :: rest → P done s → g s a = some s' →
      P (done ++ [a]) s')
    (h : l.foldlM g s = some s') : P l s' := by
  suffices hgen : ∀ rest done s, l = done ++ rest → P done s → rest.foldlM g s = some s' → P l s' from
    hgen l [] s rfl hinit h
  intro rest
  induction rest with
  | nil =>
      intro done s hl hP h
      obtain rfl : s = s' := Option.some.inj h
      rw [hl, List.append_nil]
      exact hP
  | cons a rest ih =>
      intro done s hl hP h
      rw [List.foldlM_cons, Option.bind_eq_bind, Option.bind_eq_some_iff] at h
      obtain ⟨s₁, hfirst, hrest⟩ := h
      exact ih (done ++ [a]) s₁ (by simp [hl]) (hstep hl hP hfirst) hrest

theorem foldlM_invariant {I : σ → Prop} (hstep : ∀ {s a s'}, I s → g s a = some s' → I s') (hs : I s)
    (h : l.foldlM g s = some s') : I s' :=
  foldlM_done (P := fun _ s => I s) hs (fun _ hI => hstep hI) h

/-- Where every step is seen as a step of its own, so is the fold. -/
theorem foldlM_commutes {τ : Type*} {I : σ → Prop} (see : σ → τ) {f : τ → α → τ}
    (hstep : ∀ {s a s'}, I s → g s a = some s' → I s' ∧ see s' = f (see s) a) (hs : I s)
    (h : l.foldlM g s = some s') : I s' ∧ see s' = l.foldl f (see s) := by
  refine foldlM_done (P := fun done s' => I s' ∧ see s' = done.foldl f (see s)) ⟨hs, rfl⟩ ?_ h
  rintro done rest a s₁ s₂ - ⟨hI, hsee⟩ ha
  obtain ⟨hI', hsee'⟩ := hstep hI ha
  exact ⟨hI', by rw [hsee', hsee, List.foldl_append, List.foldl_cons, List.foldl_nil]⟩

/-- What a fold needs to go through. -/
theorem foldlM_total {I : σ → Prop} (hstep : ∀ {s a}, a ∈ l → I s → ∃ s', g s a = some s' ∧ I s')
    (hs : I s) : ∃ s', l.foldlM g s = some s' ∧ I s' := by
  induction l generalizing s with
  | nil => exact ⟨s, rfl, hs⟩
  | cons a l ih =>
      obtain ⟨s₁, hfirst, hs₁⟩ := hstep List.mem_cons_self hs
      obtain ⟨s', hrest, hs'⟩ := ih (fun ha hI => hstep (List.mem_cons_of_mem _ ha) hI) hs₁
      exact ⟨s', by simp [List.foldlM_cons, hfirst, hrest], hs'⟩

/-- A fold whose steps may throw. -/
theorem foldlM_throws_or {ε : Type v} {g : σ → α → ExceptT ε Option σ} {I : σ → Prop}
    (hstep : ∀ {s a}, a ∈ l → I s → (∃ e, g s a = throw e) ∨ ∃ s', g s a = pure s' ∧ I s') (hs : I s) :
    (∃ e, l.foldlM g s = throw e) ∨ ∃ s', l.foldlM g s = pure s' ∧ I s' := by
  induction l generalizing s with
  | nil => exact .inr ⟨s, rfl, hs⟩
  | cons a l ih =>
      rw [List.foldlM_cons]
      rcases hstep List.mem_cons_self hs with ⟨e, he⟩ | ⟨s₁, hfirst, hs₁⟩
      · exact .inl ⟨e, by rw [he]; rfl⟩
      · rw [hfirst, pure_bind]
        exact ih (fun ha hI => hstep (List.mem_cons_of_mem _ ha) hI) hs₁

/-- A fold goes through if no element stops it. -/
theorem foldlM_isSome_iff {I : σ → Prop} {p : α → Prop}
    (hgo : ∀ {s a}, a ∈ l → I s → p a → ∃ s', g s a = some s' ∧ I s')
    (hstop : ∀ {s a}, a ∈ l → I s → ¬ p a → g s a = none) (hs : I s) :
    (l.foldlM g s).isSome ↔ ∀ a ∈ l, p a := by
  constructor
  · intro h
    induction l generalizing s with
    | nil => exact fun a ha => absurd ha List.not_mem_nil
    | cons a l ih =>
        obtain ⟨s', h⟩ := Option.isSome_iff_exists.1 h
        rw [List.foldlM_cons, Option.bind_eq_bind, Option.bind_eq_some_iff] at h
        obtain ⟨s₁, hfirst, hrest⟩ := h
        have hp : p a := by
          by_contra hp
          rw [hstop List.mem_cons_self hs hp] at hfirst
          cases hfirst
        obtain ⟨s₁', hsame, hs₁⟩ := hgo List.mem_cons_self hs hp
        obtain rfl := Option.some.inj (hfirst.symm.trans hsame)
        have hall := ih (fun hb => hgo (List.mem_cons_of_mem a hb)) (fun hb => hstop (List.mem_cons_of_mem a hb)) hs₁
          (by rw [hrest]; rfl)
        exact List.forall_mem_cons.2 ⟨hp, hall⟩
  · intro h
    obtain ⟨s', heq, -⟩ := foldlM_total (I := I) (fun ha hI => hgo ha hI (h _ ha)) hs
    rw [heq]
    rfl

theorem foldlM_congr {g' : σ → α → Option σ} (h : ∀ a ∈ l, ∀ s, g s a = g' s a) (s : σ) :
    l.foldlM g s = l.foldlM g' s := by
  induction l generalizing s with
  | nil => rfl
  | cons a l ih =>
      rw [List.foldlM_cons, List.foldlM_cons, h a List.mem_cons_self]
      exact congrArg _ (funext fun s => ih (fun b hb => h b (List.mem_cons_of_mem a hb)) s)

/-- Elements that leave every state as it is. -/
theorem foldlM_idle (h : ∀ a ∈ l, ∀ s, g s a = some s) (s : σ) : l.foldlM g s = some s := by
  induction l with
  | nil => rfl
  | cons a l ih =>
      rw [List.foldlM_cons, h a List.mem_cons_self, Option.bind_eq_bind, Option.bind_some]
      exact ih fun b hb => h b (List.mem_cons_of_mem a hb)

/-- A fold in which one element acts is that element. -/
theorem foldlM_only {a : α} (ha : a ∈ l) (hl : l.Nodup) (h : ∀ b ∈ l, b ≠ a → ∀ s, g s b = some s) (s : σ) :
    l.foldlM g s = g s a := by
  induction l with
  | nil => cases ha
  | cons b l ih =>
      obtain ⟨hb, hl⟩ := List.nodup_cons.1 hl
      rw [List.foldlM_cons, Option.bind_eq_bind]
      rcases List.mem_cons.1 ha with rfl | ha
      · have hrest : ∀ c ∈ l, ∀ s, g s c = some s := fun c hc =>
          h c (List.mem_cons_of_mem a hc) fun heq => hb (heq ▸ hc)
        calc
          (g s a).bind (fun s => l.foldlM g s) = (g s a).bind some :=
            congrArg _ (funext fun s => foldlM_idle hrest s)
          _ = g s a := Option.bind_fun_some (g s a)
      · have hne : b ≠ a := fun heq => hb (heq ▸ ha)
        rw [h b List.mem_cons_self hne, Option.bind_some]
        exact ih ha hl fun c hc => h c (List.mem_cons_of_mem b hc)

/-- Results that are all there. -/
theorem mapM_total {β : Type*} {g : α → Option β} (h : ∀ a ∈ l, ∃ b, g a = some b) :
    ∃ bs, l.mapM g = some bs ∧ ∀ b, b ∈ bs ↔ ∃ a ∈ l, g a = some b := by
  induction l with
  | nil => exact ⟨[], rfl, by simp⟩
  | cons a l ih =>
      obtain ⟨b, hb⟩ := h a List.mem_cons_self
      obtain ⟨bs, hbs, hmem⟩ := ih fun c hc => h c (List.mem_cons_of_mem a hc)
      refine ⟨b :: bs, by simp [hb, hbs], fun c => ?_⟩
      rw [List.mem_cons, hmem, List.exists_mem_cons_iff, hb, Option.some.injEq, eq_comm]

theorem forall₂_of_mapM {β : Type*} {g : α → Option β} {bs : List β} (h : l.mapM g = some bs) :
    List.Forall₂ (fun a b => g a = some b) l bs := by
  induction l generalizing bs with
  | nil =>
      obtain rfl := Option.some.inj h
      exact .nil
  | cons a l ih =>
      rw [List.mapM_cons] at h
      obtain ⟨b, hb, h⟩ := Option.bind_eq_some_iff.1 h
      obtain ⟨bs', hbs, h⟩ := Option.bind_eq_some_iff.1 h
      obtain rfl := Option.some.inj h
      exact .cons hb (ih hbs)

/-! ## Folds that forget -/

/-- What is seen of the state is what the last element that bears on it tells. -/
theorem foldl_findSomeRev {ω : Type*} (see : σ → ω) {step : σ → α → σ} {tells : α → Option ω}
    (hstep : ∀ s a, see (step s a) = (tells a).getD (see s)) (l : List α) (s : σ) :
    see (l.foldl step s) = (l.findSomeRev? tells).getD (see s) := by
  induction l generalizing s with
  | nil => rfl
  | cons a l ih =>
      rw [List.foldl_cons, ih, hstep, List.findSomeRev?]
      cases l.findSomeRev? tells <;> rfl

/-! ## Related lists -/

variable {β : Type v} {R : α → β → Prop} {l' : List β} {a : α}

theorem exists_of_mem_left (h : List.Forall₂ R l l') (ha : a ∈ l) : ∃ b ∈ l', R a b := by
  induction h with
  | nil => cases ha
  | cons hab _ ih =>
      rcases List.mem_cons.1 ha with rfl | ha
      · exact ⟨_, List.mem_cons_self, hab⟩
      · obtain ⟨b, hb, hr⟩ := ih ha
        exact ⟨b, List.mem_cons_of_mem _ hb, hr⟩

/-- The elements at one place are related. -/
theorem exists_getElem?_right {i : Nat} (h : List.Forall₂ R l l') (ha : l[i]? = some a) :
    ∃ b, l'[i]? = some b ∧ R a b := by
  obtain ⟨hi, rfl⟩ := List.getElem?_eq_some_iff.1 ha
  have hi' : i < l'.length := h.length_eq ▸ hi
  exact ⟨l'[i], List.getElem?_eq_getElem hi', h.get hi hi'⟩

theorem forall₂_imp_of_mem {S : α → β → Prop} (h : List.Forall₂ R l l')
    (himp : ∀ a ∈ l, ∀ b, R a b → S a b) : List.Forall₂ S l l' := by
  induction h with
  | nil => exact .nil
  | cons hab _ ih =>
      exact .cons (himp _ List.mem_cons_self _ hab) (ih fun a ha => himp a (List.mem_cons_of_mem _ ha))

theorem exists_forall₂ (h : ∀ a ∈ l, ∃ b, R a b) : ∃ l', List.Forall₂ R l l' := by
  induction l with
  | nil => exact ⟨[], .nil⟩
  | cons a l ih =>
      obtain ⟨b, hb⟩ := h a List.mem_cons_self
      obtain ⟨l', hl'⟩ := ih fun c hc => h c (List.mem_cons_of_mem a hc)
      exact ⟨b :: l', .cons hb hl'⟩

end Machine
end Raiezau
