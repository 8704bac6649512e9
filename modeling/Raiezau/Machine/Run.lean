import Mathlib.Data.List.Basic

/-!
# Run — finite runs of a labelled step relation

A machine is a step relation `step : σ → ε → σ → Prop` together with an initial state.  A run records
its whole history, latest step first, each step as the pair of the state it was taken in and its event.
Keeping the pre-states makes two things expressible without ghost variables:

* statements about *every* state met along a run (`Run.Along`);
* side conditions on the steps taken, which may look at the earlier history (`StepsMeet`).

The rules below are the only inductions over runs that the development uses.
-/

namespace Raiezau
namespace Machine

universe u v

variable {σ : Type u} {ε : Type v}

/-- The steps of a run, latest first: the state each step was taken in, and its event. -/
abbrev History (σ : Type u) (ε : Type v) := List (σ × ε)

inductive Run (step : σ → ε → σ → Prop) (init : σ) : History σ ε → σ → Prop where
  | start : Run step init [] init
  | next {h : History σ ε} {s s' : σ} {e : ε} :
      Run step init h s → step s e s' → Run step init ((s, e) :: h) s'

/-- Every step of the history meets `ok`, judged with the history before it. -/
def StepsMeet (ok : History σ ε → σ → ε → Prop) : History σ ε → Prop
  | [] => True
  | (s, e) :: h => ok h s e ∧ StepsMeet ok h

/-- `P` holds in every state a run has met, judged with the history up to it. -/
def Along (P : History σ ε → σ → Prop) : History σ ε → σ → Prop
  | [], s => P [] s
  | (s₀, e) :: h, s => P ((s₀, e) :: h) s ∧ Along P h s₀

theorem Along.last {P : History σ ε → σ → Prop} {h : History σ ε} {s : σ} (ha : Along P h s) :
    P h s := by
  cases h with
  | nil => exact ha
  | cons x h => exact ha.1

theorem StepsMeet.mono {ok ok' : History σ ε → σ → ε → Prop} (himp : ∀ {h s e}, ok h s e → ok' h s e)
    {h : History σ ε} (hmeet : StepsMeet ok h) : StepsMeet ok' h := by
  induction h with
  | nil => trivial
  | cons p h ih => exact ⟨himp hmeet.1, ih hmeet.2⟩

theorem StepsMeet.and {ok ok' : History σ ε → σ → ε → Prop} {h : History σ ε}
    (hmeet : StepsMeet ok h) (hmeet' : StepsMeet ok' h) :
    StepsMeet (fun h s e => ok h s e ∧ ok' h s e) h := by
  induction h with
  | nil => trivial
  | cons p h ih => exact ⟨⟨hmeet.1, hmeet'.1⟩, ih hmeet.2 hmeet'.2⟩

instance StepsMeet.decidable {ok : History σ ε → σ → ε → Prop} [∀ h s e, Decidable (ok h s e)] :
    ∀ h, Decidable (StepsMeet ok h)
  | [] => .isTrue trivial
  | (s, e) :: h =>
      have : Decidable (StepsMeet ok h) := StepsMeet.decidable h
      inferInstanceAs (Decidable (ok h s e ∧ StepsMeet ok h))

instance Along.decidable {P : History σ ε → σ → Prop} [∀ h s, Decidable (P h s)] :
    ∀ h s, Decidable (Along P h s)
  | [], s => inferInstanceAs (Decidable (P [] s))
  | (s₀, e) :: h, s =>
      have : Decidable (Along P h s₀) := Along.decidable h s₀
      inferInstanceAs (Decidable (P ((s₀, e) :: h) s ∧ Along P h s₀))

/-- Replay a list of events, earliest first, with a step function. -/
def replay (step : σ → ε → Option σ) : History σ ε → σ → List ε → Option (History σ ε × σ)
  | h, s, [] => some (h, s)
  | h, s, e :: es =>
      match step s e with
      | none => none
      | some s' => replay step ((s, e) :: h) s' es

namespace Run

variable {step : σ → ε → σ → Prop} {init : σ} {h : History σ ε} {s : σ}

/-! ## Invariants -/

theorem invariant {I : σ → Prop} (hinit : I init)
    (hstep : ∀ {s e s'}, I s → step s e s' → I s') (hrun : Run step init h s) : I s := by
  induction hrun with
  | start => exact hinit
  | next _ hs ih => exact hstep ih hs

/-- An invariant of the history and the state together. -/
@[elab_as_elim]
theorem invariant_history {I : History σ ε → σ → Prop} (hinit : I [] init)
    (hstep : ∀ {h s e s'}, Run step init h s → I h s → step s e s' → I ((s, e) :: h) s')
    (hrun : Run step init h s) : I h s := by
  induction hrun with
  | start => exact hinit
  | next hr hs ih => exact hstep hr ih hs

/-- An invariant that only steps meeting `ok` are known to keep, and what follows from it. -/
theorem along_of_stepsMeet {ok : History σ ε → σ → ε → Prop} {I P : History σ ε → σ → Prop}
    (hinit : I [] init)
    (hstep : ∀ {h s e s'}, I h s → ok h s e → step s e s' → I ((s, e) :: h) s')
    (hP : ∀ {h s}, I h s → P h s) (hrun : Run step init h s) (hok : StepsMeet ok h) : Along P h s := by
  have hboth : I h s ∧ Along P h s := by
    induction hrun with
    | start => exact ⟨hinit, hP hinit⟩
    | next hr hs ih =>
        obtain ⟨hI, halong⟩ := ih hok.2
        have hI' := hstep hI hok.1 hs
        exact ⟨hI', hP hI', halong⟩
  exact hboth.2

/-- Where every step is matched by a step of another machine on the same event, so is every run. -/
theorem simulated {σ' : Type u} {step' : σ' → ε → σ' → Prop} {init' : σ'} {R : σ → σ' → Prop} (hinit : R init init')
    (hstep : ∀ {s e s₁ s'}, R s s' → step s e s₁ → ∃ s₁', step' s' e s₁' ∧ R s₁ s₁') (hrun : Run step init h s) :
    ∃ h' s', Run step' init' h' s' ∧ R s s' ∧ h'.map Prod.snd = h.map Prod.snd := by
  induction hrun with
  | start => exact ⟨[], init', .start, hinit, rfl⟩
  | @next h s s₁ e _ hs ih =>
      obtain ⟨h', s', hrun', hrel, hevents⟩ := ih
      obtain ⟨s₁', hs', hrel'⟩ := hstep hrel hs
      exact ⟨(s', e) :: h', s₁', hrun'.next hs', hrel', congrArg (e :: ·) hevents⟩

/-- The same, where only the steps meeting `ok` are known to be matched. -/
theorem simulated_of_stepsMeet {ok : History σ ε → σ → ε → Prop} {σ' : Type u} {step' : σ' → ε → σ' → Prop}
    {init' : σ'} {R : σ → σ' → Prop} (hinit : R init init')
    (hstep : ∀ {h s e s₁ s'}, R s s' → ok h s e → step s e s₁ → ∃ s₁', step' s' e s₁' ∧ R s₁ s₁')
    (hrun : Run step init h s) (hok : StepsMeet ok h) :
    ∃ h' s', Run step' init' h' s' ∧ R s s' ∧ h'.map Prod.snd = h.map Prod.snd := by
  induction hrun with
  | start => exact ⟨[], init', .start, hinit, rfl⟩
  | @next h s s₁ e _ hs ih =>
      obtain ⟨h', s', hrun', hrel, hevents⟩ := ih hok.2
      obtain ⟨s₁', hs', hrel'⟩ := hstep hrel hok.1 hs
      exact ⟨(s', e) :: h', s₁', hrun'.next hs', hrel', congrArg (e :: ·) hevents⟩

/-! ## Exact side conditions

When a step out of a state satisfying `P` ends in `P` exactly if it meets `ok`, the runs that never
leave `P` are exactly those all of whose steps meet `ok`.
-/

/-- `I` is an invariant that only the steps meeting `ok` are known to keep. -/
theorem along_iff_stepsMeet_of_invariant {ok : History σ ε → σ → ε → Prop} {P : History σ ε → σ → Prop}
    {I : σ → Prop} (hinit : P [] init) (hinv : I init)
    (hstep : ∀ {h s e s'}, Run step init h s → I s → P h s → step s e s' →
      (P ((s, e) :: h) s' ↔ ok h s e) ∧ (ok h s e → I s'))
    (hrun : Run step init h s) : Along P h s ↔ StepsMeet ok h := by
  have hboth : (Along P h s ↔ StepsMeet ok h) ∧ (StepsMeet ok h → I s) := by
    induction hrun with
    | start => exact ⟨⟨fun _ => trivial, fun _ => hinit⟩, fun _ => hinv⟩
    | @next h s s' e hr hs ih =>
        obtain ⟨halong, hI⟩ := ih
        refine ⟨⟨?_, ?_⟩, ?_⟩
        · rintro ⟨hlast, hprev⟩
          have hmeet := halong.1 hprev
          exact ⟨(hstep hr (hI hmeet) hprev.last hs).1.1 hlast, hmeet⟩
        · rintro ⟨hok, hmeet⟩
          have hprev : Along P h s := halong.2 hmeet
          exact ⟨(hstep hr (hI hmeet) hprev.last hs).1.2 hok, hprev⟩
        · rintro ⟨hok, hmeet⟩
          exact (hstep hr (hI hmeet) (halong.2 hmeet).last hs).2 hok
  exact hboth.1

theorem along_iff_stepsMeet {ok : History σ ε → σ → ε → Prop} {P : History σ ε → σ → Prop}
    (hinit : P [] init)
    (hstep : ∀ {h s e s'}, Run step init h s → P h s → step s e s' → (P ((s, e) :: h) s' ↔ ok h s e))
    (hrun : Run step init h s) : Along P h s ↔ StepsMeet ok h :=
  along_iff_stepsMeet_of_invariant (I := fun _ => True) hinit trivial
    (fun hr _ hp hs => ⟨hstep hr hp hs, fun _ => trivial⟩) hrun

/-- Two conditions that agree on the steps out of every state reached. -/
theorem stepsMeet_iff {ok ok' : History σ ε → σ → ε → Prop}
    (hok : ∀ {h s}, Run step init h s → ∀ e, (ok h s e ↔ ok' h s e)) (hrun : Run step init h s) :
    StepsMeet ok h ↔ StepsMeet ok' h := by
  induction hrun with
  | start => exact Iff.rfl
  | next hr _ ih => exact and_congr (hok hr _) ih

/-- The run up to a step of its history. -/
theorem of_append {newer older : History σ ε} {s₀ : σ} {e : ε} (hrun : Run step init (newer ++ (s₀, e) :: older) s) :
    Run step init older s₀ ∧ ∃ s₁, step s₀ e s₁ := by
  induction newer generalizing s with
  | nil =>
      cases hrun with
      | next hr hs => exact ⟨hr, s, hs⟩
  | cons x newer ih =>
      cases hrun with
      | next hr _ => exact ih hr

/-! ## Replaying -/

theorem of_replay {f : σ → ε → Option σ} (hf : ∀ {s e s'}, f s e = some s' → step s e s')
    {es : List ε} {h' : History σ ε} {s' : σ} (hrun : Run step init h s)
    (hre : replay f h s es = some (h', s')) : Run step init h' s' := by
  induction es generalizing h s with
  | nil =>
      obtain ⟨rfl, rfl⟩ : h = h' ∧ s = s' := by simpa [replay] using hre
      exact hrun
  | cons e es ih =>
      cases hfe : f s e with
      | none => simp [replay, hfe] at hre
      | some s₁ =>
          rw [replay, hfe] at hre
          exact ih (hrun.next (hf hfe)) hre

/-- Where the step function takes every event, every list of events replays. -/
theorem exists_replay {f : σ → ε → Option σ} {I : σ → Prop}
    (hstep : ∀ {s} e, I s → ∃ s', f s e = some s' ∧ I s') (hs : I s) (es : List ε) :
    ∃ h' s', replay f h s es = some (h', s') := by
  induction es generalizing h s with
  | nil => exact ⟨h, s, rfl⟩
  | cons e es ih =>
      obtain ⟨s₁, hfirst, hs₁⟩ := hstep e hs
      rw [replay, hfirst]
      exact ih hs₁

/-- Events that replay are a run, and what a check finds at its end holds there. -/
theorem exists_of_replay {f : σ → ε → Option σ} (hf : ∀ {s e s'}, f s e = some s' → step s e s')
    (es : List ε) {P : History σ ε → σ → Prop} [∀ h s, Decidable (P h s)]
    (hre : (replay f [] init es).any (fun r => P r.1 r.2) = true) :
    ∃ h s, Run step init h s ∧ P h s := by
  obtain ⟨⟨h, s⟩, hr, hp⟩ := (Option.any_eq_true _ _).1 hre
  exact ⟨h, s, of_replay hf .start hr, of_decide_eq_true hp⟩

end Run

end Machine
end Raiezau
