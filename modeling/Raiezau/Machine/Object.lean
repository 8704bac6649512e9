import Mathlib.Data.Option.Basic

/-!
# Object — what is seen of a state through its calls

An object is a function `call : σ → ι → Option (ω × σ)`: what a call returns, and the state after it.  A call
that the object does not take is `none`, and nothing is called after it.  Two objects that a simulation
relates cannot be told apart by any sequence of calls.
-/

namespace Raiezau
namespace Machine

universe u v w x

variable {σ : Type u} {τ : Type v} {ι : Type w} {ω : Type x}

/-- What the calls return, one after the other. -/
def outcomes (call : σ → ι → Option (ω × σ)) : σ → List ι → List (Option ω)
  | _, [] => []
  | s, i :: is =>
      match call s i with
      | none => [none]
      | some (out, s') => some out :: outcomes call s' is

/-- The state the calls lead to. -/
def after (call : σ → ι → Option (ω × σ)) : σ → List ι → Option σ
  | s, [] => some s
  | s, i :: is =>
      match call s i with
      | none => none
      | some (_, s') => after call s' is

/-- Related states take the same calls, which return the same and lead to related states. -/
def Simulation (R : σ → τ → Prop) (f : σ → ι → Option (ω × σ)) (g : τ → ι → Option (ω × τ)) : Prop :=
  ∀ {s t}, R s t → ∀ i, Option.Rel (fun p q => p.1 = q.1 ∧ R p.2 q.2) (f s i) (g t i)

variable {R : σ → τ → Prop} {f : σ → ι → Option (ω × σ)} {g : τ → ι → Option (ω × τ)} {s : σ} {t : τ}

theorem Simulation.outcomes_eq (hsim : Simulation R f g) (h : R s t) (is : List ι) :
    outcomes f s is = outcomes g t is := by
  induction is generalizing s t with
  | nil => rfl
  | cons i is ih =>
      have hcall := hsim h i
      unfold outcomes
      generalize f s i = o, g t i = o' at hcall
      cases hcall with
      | none => rfl
      | some hpq =>
          obtain ⟨hout, hrel⟩ := hpq
          dsimp only
          rw [hout, ih hrel]

theorem Simulation.after_rel (hsim : Simulation R f g) (h : R s t) (is : List ι) :
    Option.Rel R (after f s is) (after g t is) := by
  induction is generalizing s t with
  | nil => exact .some h
  | cons i is ih =>
      have hcall := hsim h i
      unfold after
      generalize f s i = o, g t i = o' at hcall
      cases hcall with
      | none => exact .none
      | some hpq => exact ih hpq.2

/-- The state of the one object, for a state of the other that calls lead to. -/
theorem Simulation.exists_after (hsim : Simulation R f g) (h : R s t) {is : List ι} {s' : σ}
    (hafter : after f s is = some s') : ∃ t', after g t is = some t' ∧ R s' t' := by
  have hrel := hsim.after_rel h is
  rw [hafter] at hrel
  generalize hgt : after g t is = o at hrel
  cases hrel with
  | some hr => exact ⟨_, rfl, hr⟩

end Machine
end Raiezau
