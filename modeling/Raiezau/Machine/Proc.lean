import Mathlib.Data.List.Basic

/-!
# Proc — sequential processes between two streams

A process has a state of its own, reads symbols from an input stream and appends symbols to an output
stream.  It ends with a value or with an exception; a process that waits for input that is not there is
blocked (`none`).

`Transfers m s xs r ys s'` says all there is to say about one run of `m`: started in state `s` it takes
exactly `xs` from the input, whatever follows, ends with `r` in state `s'` and has written exactly `ys`.
The rules below follow the shape of the program.
-/

namespace Raiezau
namespace Machine

universe u

structure Port (σ χ : Type u) where
  state : σ
  input : List χ
  output : List χ

abbrev Proc (σ χ ε α : Type u) := ExceptT ε (StateT (Port σ χ) Option) α

namespace Proc

variable {σ χ ε α β : Type u}

/-- Wait for input that never comes. -/
def blocked : Proc σ χ ε α := fun _ => none

def read : Proc σ χ ε χ := fun p =>
  match p.input with
  | [] => none
  | c :: cs => some (.ok c, { p with input := cs })

/-- Read as many symbols as asked for. -/
def readMany (n : Nat) : Proc σ χ ε (List χ) := fun p =>
  if n ≤ p.input.length then some (.ok (p.input.take n), { p with input := p.input.drop n }) else none

def write (ys : List χ) : Proc σ χ ε PUnit := fun p =>
  some (.ok ⟨⟩, { p with output := p.output ++ ys })

def getState : Proc σ χ ε σ := fun p => some (.ok p.state, p)

def setState (s : σ) : Proc σ χ ε PUnit := fun p => some (.ok ⟨⟩, { p with state := s })

def ofExcept (r : Except ε α) : Proc σ χ ε α := fun p => some (r, p)

/-- At most `n` passes of a loop; a pass either continues with a new value or leaves the loop. -/
def iterate (body : β → Proc σ χ ε (β ⊕ α)) : Nat → β → Proc σ χ ε α
  | 0, _ => blocked
  | n + 1, b => do
      match ← body b with
      | .inl b' => iterate body n b'
      | .inr a => pure a

/-- A loop each of whose passes reads: it makes at most one pass more than there are symbols. -/
def loop (body : β → Proc σ χ ε (β ⊕ α)) (b : β) : Proc σ χ ε α := fun p =>
  iterate body (p.input.length + 1) b p

/-! ## Runs -/

theorem bind_run_ok {m : Proc σ χ ε α} {f : α → Proc σ χ ε β} {p p' : Port σ χ} {a : α}
    (h : m p = some (.ok a, p')) : (m >>= f) p = f a p' := by
  change (m p >>= fun x : Except ε α × Port σ χ => ExceptT.bindCont f x.1 x.2) = _
  rw [h]
  rfl

theorem bind_run_error {m : Proc σ χ ε α} {f : α → Proc σ χ ε β} {p p' : Port σ χ} {e : ε}
    (h : m p = some (.error e, p')) : (m >>= f) p = some (.error e, p') := by
  change (m p >>= fun x : Except ε α × Port σ χ => ExceptT.bindCont f x.1 x.2) = _
  rw [h]
  rfl

theorem bind_run_none {m : Proc σ χ ε α} {f : α → Proc σ χ ε β} {p : Port σ χ} (h : m p = none) :
    (m >>= f) p = none := by
  change (m p >>= fun x : Except ε α × Port σ χ => ExceptT.bindCont f x.1 x.2) = _
  rw [h]
  rfl

/-- A sequence that ends: its first part ends, with an exception or with a value that the rest goes on with. -/
theorem bind_run_inv {m : Proc σ χ ε α} {f : α → Proc σ χ ε β} {p p' : Port σ χ} {r : Except ε β}
    (h : (m >>= f) p = some (r, p')) :
    (∃ e, m p = some (.error e, p') ∧ r = .error e) ∨ ∃ a p₁, m p = some (.ok a, p₁) ∧ f a p₁ = some (r, p') := by
  cases hm : m p with
  | none =>
      rw [bind_run_none hm] at h
      cases h
  | some x =>
      obtain ⟨e | a, p₁⟩ := x
      · rw [bind_run_error hm] at h
        obtain ⟨rfl, rfl⟩ := Prod.mk.inj (Option.some.inj h)
        exact .inl ⟨e, rfl, rfl⟩
      · rw [bind_run_ok hm] at h
        exact .inr ⟨a, p₁, rfl, h⟩

/-- A handler is asked only after an exception. -/
theorem tryCatch_run_inv {m : Proc σ χ ε α} {handler : ε → Proc σ χ ε α} {p p' : Port σ χ} {r : Except ε α}
    (h : MonadExcept.tryCatch m handler p = some (r, p')) :
    (∃ a, m p = some (.ok a, p') ∧ r = .ok a) ∨
      ∃ e p₁, m p = some (.error e, p₁) ∧ handler e p₁ = some (r, p') := by
  change (m p >>= fun x : Except ε α × Port σ χ => _) = _ at h
  cases hm : m p with
  | none =>
      rw [hm] at h
      cases h
  | some x =>
      obtain ⟨e | a, p₁⟩ := x
      · rw [hm] at h
        exact .inr ⟨e, p₁, rfl, h⟩
      · rw [hm] at h
        obtain ⟨rfl, rfl⟩ := Prod.mk.inj (Option.some.inj h)
        exact .inl ⟨a, rfl, rfl⟩

/-- A loop that has ended is not changed by a larger bound. -/
theorem iterate_succ {body : β → Proc σ χ ε (β ⊕ α)} {n : Nat} {b : β} {p : Port σ χ}
    {r : Except ε α × Port σ χ} (h : iterate body n b p = some r) :
    iterate body (n + 1) b p = some r := by
  -- The same passes are made under both bounds, as the loop ends before the smaller one.
  induction n generalizing b p with
  | zero => cases h
  | succ n ih =>
      rw [iterate] at h ⊢
      cases hb : body b p with
      | none =>
          rw [bind_run_none hb] at h
          cases h
      | some x =>
          obtain ⟨x | x, p'⟩ := x
          · rw [bind_run_error hb] at h ⊢
            exact h
          · rw [bind_run_ok hb] at h ⊢
            cases x with
            | inl b' => exact ih h
            | inr a => exact h

theorem iterate_mono {body : β → Proc σ χ ε (β ⊕ α)} {n k : Nat} {b : β} {p : Port σ χ}
    {r : Except ε α × Port σ χ} (hnk : n ≤ k) (h : iterate body n b p = some r) :
    iterate body k b p = some r := by
  induction hnk with
  | refl => exact h
  | step _ ih => exact iterate_succ ih

end Proc

/-! ## Transfers -/

open Proc

variable {σ χ ε α β : Type u} {m : Proc σ χ ε α} {s s₁ s₂ : σ} {xs xs' ys ys' : List χ}

def Transfers (m : Proc σ χ ε α) (s : σ) (xs : List χ) (r : Except ε α) (ys : List χ) (s' : σ) :
    Prop :=
  ∀ rest out, m ⟨s, xs ++ rest, out⟩ = some (r, ⟨s', rest, out ++ ys⟩)

namespace Transfers

/-- The run on exactly the symbols it takes. -/
theorem run {r : Except ε α} (h : Transfers m s xs r ys s₁) :
    m ⟨s, xs, []⟩ = some (r, ⟨s₁, [], ys⟩) := by
  simpa using h [] []

theorem pure (a : α) : Transfers (Pure.pure a : Proc σ χ ε α) s [] (.ok a) [] s := by
  intro rest out
  simp only [List.nil_append, List.append_nil]
  rfl

theorem bind {a : α} {f : α → Proc σ χ ε β} {r : Except ε β} (hm : Transfers m s xs (.ok a) ys s₁)
    (hf : Transfers (f a) s₁ xs' r ys' s₂) : Transfers (m >>= f) s (xs ++ xs') r (ys ++ ys') s₂ := by
  intro rest out
  rw [List.append_assoc, bind_run_ok (hm _ _), hf, List.append_assoc]

/-- What is done after a process that writes nothing. -/
theorem bind_read {a : α} {f : α → Proc σ χ ε β} {r : Except ε β}
    (hm : Transfers m s xs (.ok a) [] s₁) (hf : Transfers (f a) s₁ xs' r ys s₂) :
    Transfers (m >>= f) s (xs ++ xs') r ys s₂ :=
  hm.bind hf

/-- A last part that neither reads nor writes. -/
theorem bind_last {a : α} {f : α → Proc σ χ ε β} {r : Except ε β}
    (hm : Transfers m s xs (.ok a) ys s₁) (hf : Transfers (f a) s₁ [] r [] s₂) :
    Transfers (m >>= f) s xs r ys s₂ := by
  have h := hm.bind hf
  rwa [List.append_nil, List.append_nil] at h

/-- A computation that takes no part in the streams. -/
theorem ofExcept {r r' : Except ε α} (h : r = r') :
    Transfers (Proc.ofExcept r : Proc σ χ ε α) s [] r' [] s := by
  intro rest out
  simp only [h, List.nil_append, List.append_nil]
  rfl

theorem read (c : χ) : Transfers (Proc.read : Proc σ χ ε χ) s [c] (.ok c) [] s := by
  intro rest out
  rw [List.append_nil]
  rfl

theorem readMany {n : Nat} (h : xs.length = n) :
    Transfers (Proc.readMany n : Proc σ χ ε (List χ)) s xs (.ok xs) [] s := by
  intro rest out
  have hlen : xs.length ≤ (xs ++ rest).length := by simp
  subst h
  simp only [Proc.readMany, hlen, if_true, List.take_left, List.drop_left, List.append_nil]

theorem write : Transfers (Proc.write ys : Proc σ χ ε PUnit) s [] (.ok ⟨⟩) ys s := fun _ _ => rfl

theorem getState : Transfers (Proc.getState : Proc σ χ ε σ) s [] (.ok s) [] s := by
  intro rest out
  simp only [List.nil_append, List.append_nil]
  rfl

theorem setState : Transfers (Proc.setState s₁ : Proc σ χ ε PUnit) s [] (.ok ⟨⟩) [] s₁ := by
  intro rest out
  simp only [List.nil_append, List.append_nil]
  rfl

/-- The last pass of a loop. -/
theorem loop_inr {body : β → Proc σ χ ε (β ⊕ α)} {b : β} {a : α}
    (h : Transfers (body b) s xs (.ok (.inr a)) ys s₁) :
    Transfers (loop body b) s xs (.ok a) ys s₁ := by
  intro rest out
  rw [loop, iterate, bind_run_ok (h _ _)]
  rfl

/-- A pass of a loop, and the passes after it. -/
theorem loop_inl {body : β → Proc σ χ ε (β ⊕ α)} {b b' : β} {r : Except ε α} (hxs : xs ≠ [])
    (h : Transfers (body b) s xs (.ok (.inl b')) ys s₁)
    (hrest : Transfers (loop body b') s₁ xs' r ys' s₂) :
    Transfers (loop body b) s (xs ++ xs') r (ys ++ ys') s₂ := by
  intro rest out
  have hlater := hrest rest (out ++ ys)
  rw [loop] at hlater
  rw [loop, iterate, List.append_assoc, bind_run_ok (h _ _)]
  refine (iterate_mono ?_ hlater).trans (by rw [List.append_assoc])
  have hpos := List.length_pos_iff.2 hxs
  simp only [List.length_append]
  omega

/-- A traversal each of whose steps writes. -/
theorem forM {ι κ : Type u} {l : List ι} {g : ι → κ} {f : κ → Proc σ χ ε PUnit} {enc : ι → List χ}
    (h : ∀ i ∈ l, Transfers (f (g i)) s [] (.ok ⟨⟩) (enc i) s) :
    Transfers ((l.map g).forM f) s [] (.ok ⟨⟩) (l.flatMap enc) s := by
  induction l with
  | nil => exact pure _
  | cons i l ih =>
      have hhead := h i (by simp)
      have htail := ih fun j hj => h j (by simp [hj])
      exact hhead.bind htail

theorem throw (e : ε) : Transfers (MonadExcept.throw e : Proc σ χ ε α) s [] (.error e) [] s := by
  intro rest out
  simp only [List.nil_append, List.append_nil]
  rfl

/-- An exception ends a process. -/
theorem bind_error {e : ε} {f : α → Proc σ χ ε β} (hm : Transfers m s xs (.error e) ys s₁) :
    Transfers (m >>= f) s xs (.error e) ys s₁ := fun _ _ => bind_run_error (hm _ _)

/-- An exception is handled. -/
theorem tryCatch_error {e : ε} {r : Except ε α} {handler : ε → Proc σ χ ε α}
    (h : Transfers m s xs (.error e) ys s₁) (hh : Transfers (handler e) s₁ xs' r ys' s₂) :
    Transfers (MonadExcept.tryCatch m handler) s (xs ++ xs') r (ys ++ ys') s₂ := by
  intro rest out
  change (m _ >>= fun x : Except ε α × Port σ χ => _) = _
  rw [List.append_assoc, h]
  exact (hh _ _).trans (by rw [List.append_assoc])

/-- A process that ends without an exception is not handled. -/
theorem tryCatch {a : α} {handler : ε → Proc σ χ ε α} (h : Transfers m s xs (.ok a) ys s₁) :
    Transfers (MonadExcept.tryCatch m handler) s xs (.ok a) ys s₁ := by
  intro rest out
  change (m _ >>= fun x : Except ε α × Port σ χ => _) = _
  rw [h]
  rfl

end Transfers

/-! ## Processes that only write -/

/-- Wherever it is started, it ends, with an exception or without; it takes nothing from the input. -/
def Emits (m : Proc σ χ ε α) (s : σ) : Prop :=
  ∀ xs out, ∃ r ys, m ⟨s, xs, out⟩ = some (r, ⟨s, xs, out ++ ys⟩)

namespace Emits

theorem write : Emits (Proc.write ys : Proc σ χ ε PUnit) s := fun _ _ => ⟨.ok ⟨⟩, ys, rfl⟩

theorem pure (a : α) : Emits (Pure.pure a : Proc σ χ ε α) s := fun _ out =>
  ⟨.ok a, [], by rw [List.append_nil]; rfl⟩

theorem throw (e : ε) : Emits (MonadExcept.throw e : Proc σ χ ε α) s := fun _ out =>
  ⟨.error e, [], by rw [List.append_nil]; rfl⟩

theorem bind {f : α → Proc σ χ ε β} (hm : Emits m s) (hf : ∀ a, Emits (f a) s) : Emits (m >>= f) s := by
  intro xs out
  obtain ⟨r, ys, hrun⟩ := hm xs out
  cases r with
  | error e => exact ⟨.error e, ys, bind_run_error hrun⟩
  | ok a =>
      obtain ⟨r, ys', hrest⟩ := hf a xs (out ++ ys)
      exact ⟨r, ys ++ ys', by rw [bind_run_ok hrun, hrest, List.append_assoc]⟩

theorem forM {κ : Type u} {f : κ → Proc σ χ ε PUnit} (h : ∀ k, Emits (f k) s) (l : List κ) :
    Emits (l.forM f) s := by
  induction l with
  | nil => exact pure _
  | cons k l ih => exact (h k).bind fun _ => ih

end Emits

/-- What is written for certain comes before the rest. -/
theorem Transfers.emits {a : α} {f : α → Proc σ χ ε β} (hm : Transfers m s [] (.ok a) ys s) (hf : Emits (f a) s) :
    ∃ r more, (m >>= f) ⟨s, [], []⟩ = some (r, ⟨s, [], ys ++ more⟩) := by
  obtain ⟨r, more, hrest⟩ := hf [] ys
  exact ⟨r, more, (bind_run_ok hm.run).trans hrest⟩

end Machine
end Raiezau
