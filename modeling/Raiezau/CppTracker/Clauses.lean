import Raiezau.Machine.Fold
import Raiezau.CppTracker.Declare

/-!
# Clauses — how a handler goes through its clauses

`handleAnnounce` and `handleUpdate` read a fixed number of clauses and apply each one as it is read.  What
they do is a fold over the clauses: up to the end when the request is accepted, and up to the clause that
throws otherwise.
-/

namespace Raiezau
namespace CppTracker

open Memory CUtil Machine

variable {st st' : Tracker} {p : Addr} {q : Peer} {line what reply : CString} {ss : IStream}
  {announce : Bool} {cls : List Clause} {apply : Tracker → Clause → Option (Result Unit)}

/-! ## The loop -/

/-- The clauses a loop of `n` rounds reads. -/
def clausesOf (announce : Bool) : Nat → Scan → List Clause
  | 0, _ => []
  | n + 1, s => (readClause announce s).2 :: clausesOf announce n (readClause announce s).1

theorem length_clausesOf (announce : Bool) (n : Nat) (s : Scan) :
    (clausesOf announce n s).length = n := by
  induction n generalizing s with
  | zero => rfl
  | succ n ih => simp [clausesOf, ih]

/-- What a clause does when it does not throw. -/
def accept (apply : Tracker → Clause → Option (Result Unit)) (st : Tracker) (c : Clause) :
    Option Tracker :=
  match apply st c with
  | some (st, .ok ()) => some st
  | _ => none

theorem accept_eq_some {c : Clause} : accept apply st c = some st' ↔ apply st c = some (st', .ok ()) := by
  unfold accept
  split
  · next h => simp [h]
  · next h =>
      exact ⟨fun hne => (nomatch hne), fun heq => absurd heq (h st')⟩

theorem clauseLoop_succ (n : Nat) (s : Scan) (seen : Seen) :
    clauseLoop apply announce (n + 1) st s seen =
      match apply st (readClause announce s).2 with
      | none => none
      | some (st, .error what) => some (st, .error what)
      | some (st, .ok ()) =>
          clauseLoop apply announce n st (readClause announce s).1 (seen.mark (readClause announce s).2) :=
  rfl

theorem clauseLoop_ok {n : Nat} {s : Scan} {seen seen' : Seen}
    (h : clauseLoop apply announce n st s seen = some (st', .ok seen')) :
    (clausesOf announce n s).foldlM (accept apply) st = some st' ∧
      seen' = (clausesOf announce n s).foldl Seen.mark seen := by
  -- The loop and the fold take the same clauses in turn.
  induction n generalizing st s seen with
  | zero =>
      obtain ⟨rfl, hseen⟩ := Prod.mk.inj (Option.some.inj h)
      exact ⟨rfl, (Except.ok.inj hseen).symm⟩
  | succ n ih =>
      rw [clauseLoop_succ] at h
      split at h
      · cases h
      · cases (Prod.mk.inj (Option.some.inj h)).2
      · next st₁ happly =>
          obtain ⟨hrest, hseen⟩ := ih h
          refine ⟨?_, hseen⟩
          rw [clausesOf, List.foldlM_cons, accept_eq_some.2 happly]
          exact hrest

/-- The clauses before the one that throws have been applied. -/
theorem clauseLoop_error {n : Nat} {s : Scan} {seen : Seen}
    (h : clauseLoop apply announce n st s seen = some (st', .error what)) :
    ∃ done c rest st₁, clausesOf announce n s = done ++ c :: rest ∧
      done.foldlM (accept apply) st = some st₁ ∧ apply st₁ c = some (st', .error what) := by
  induction n generalizing st s seen with
  | zero => cases (Prod.mk.inj (Option.some.inj h)).2
  | succ n ih =>
      rw [clauseLoop_succ] at h
      split at h
      · cases h
      · next st₁ what' happly =>
          obtain ⟨rfl, hwhat⟩ := Prod.mk.inj (Option.some.inj h)
          obtain rfl := Except.error.inj hwhat
          exact ⟨[], _, _, st, rfl, rfl, happly⟩
      · next st₁ happly =>
          obtain ⟨done, c, rest, st₂, hcls, hdone, hc⟩ := ih h
          refine ⟨(readClause announce s).2 :: done, c, rest, st₂, ?_, ?_, hc⟩
          · rw [clausesOf, hcls]
            rfl
          · rw [List.foldlM_cons, accept_eq_some.2 happly]
            exact hdone

/-! ## The two handlers -/

/-- What the handler of a declaration does with a clause. -/
def applyClause (announce : Bool) (p : Addr) : Tracker → Clause → Option (Result Unit) :=
  if announce then announceClause p else updateClause p

/-- The flags that the handler of a declaration tests. -/
def Seen.All (announce : Bool) (seen : Seen) : Prop :=
  (announce = true → seen.listen = true) ∧ seen.seed = true ∧ seen.leech = true

instance (announce : Bool) (seen : Seen) : Decidable (seen.All announce) :=
  inferInstanceAs (Decidable (_ ∧ _ ∧ _))

/-- How many clauses the handler of a declaration reads. -/
def clauseCount (announce : Bool) : Nat := if announce then 3 else 2

/-- What the handler of a declaration does once it has seen all its clauses. -/
def conclude (announce : Bool) (st : Tracker) (p : Addr) : Tracker :=
  if announce then st.modifyPeer p fun q => { q with announced := true } else st

/-- The common form of the two handlers: an announce wants a peer that has not announced yet and three
clauses, an update one that has and two. -/
def declareWith (announce : Bool) (st : Tracker) (p : Addr) (line : IStream) : Option (Result CString) := do
  let q ← st.peer p
  if q.announced = announce then
    pure (st, .error (if announce then "already announced".toList else notAnnounced))
  else
    match ← clauseLoop (applyClause announce p) announce (clauseCount announce) st (Scan.start line)
        Seen.none with
    | (st, .error what) => pure (st, .error what)
    | (st, .ok seen) =>
        if seen.All announce then pure (conclude announce st p, .ok okReply)
        else pure (st, .error invalidRequest)

theorem handleAnnounce_eq (st : Tracker) (p : Addr) (line : IStream) :
    handleAnnounce st p line = declareWith true st p line := by
  unfold handleAnnounce declareWith
  congr 1
  funext q
  refine if_congr Iff.rfl rfl ?_
  congr 1
  funext ⟨st₁, r⟩
  cases r with
  | error what => rfl
  | ok seen =>
      obtain ⟨listen, seed, leech⟩ := seen
      cases listen <;> cases seed <;> cases leech <;> rfl

theorem handleUpdate_eq (st : Tracker) (p : Addr) (line : IStream) :
    handleUpdate st p line = declareWith false st p line := by
  unfold handleUpdate declareWith
  congr 1
  funext q
  refine if_congr (by simp) rfl ?_
  congr 1
  funext ⟨st₁, r⟩
  cases r with
  | error what => rfl
  | ok seen =>
      obtain ⟨listen, seed, leech⟩ := seen
      cases listen <;> cases seed <;> cases leech <;> rfl

/-- The clauses that the handler of a declaration reads. -/
def declaredClauses (announce : Bool) (line : IStream) : List Clause :=
  clausesOf announce (clauseCount announce) (Scan.start line)

theorem declareWith_ok (h : declareWith announce st p ss = some (st', .ok reply)) :
    ∃ q st₁, st.peer p = some q ∧ q.announced = !announce ∧
      (declaredClauses announce ss).foldlM (accept (applyClause announce p)) st = some st₁ ∧
      ((declaredClauses announce ss).foldl Seen.mark Seen.none).All announce ∧
      st' = conclude announce st₁ p ∧ reply = okReply := by
  simp only [declareWith, Option.bind_eq_bind, Option.bind_eq_some_iff] at h
  obtain ⟨q, hq, h⟩ := h
  -- A peer that has announced is refused by the one handler, one that has not by the other.
  split at h
  · cases (Prod.mk.inj (Option.some.inj h)).2
  · next hann =>
      obtain ⟨⟨st₁, r⟩, hloop, h⟩ := Option.bind_eq_some_iff.1 h
      cases r with
      | error what => cases (Prod.mk.inj (Option.some.inj h)).2
      | ok seen =>
          obtain ⟨hfold, rfl⟩ := clauseLoop_ok hloop
          dsimp only at h
          split at h
          · next hall =>
              obtain ⟨rfl, hreply⟩ := Prod.mk.inj (Option.some.inj h)
              refine ⟨q, st₁, hq, ?_, hfold, hall, rfl, (Except.ok.inj hreply).symm⟩
              cases hq' : q.announced <;> cases announce <;> simp_all
          · cases (Prod.mk.inj (Option.some.inj h)).2

/-- The ways a declaration fails: at once, at a clause, or for want of a clause. -/
theorem declareWith_error (h : declareWith announce st p ss = some (st', .error what)) :
    ∃ q, st.peer p = some q ∧ ((q.announced = announce ∧ st' = st) ∨ (q.announced = !announce ∧
      ((∃ done c rest st₁, declaredClauses announce ss = done ++ c :: rest ∧
          done.foldlM (accept (applyClause announce p)) st = some st₁ ∧
          applyClause announce p st₁ c = some (st', .error what)) ∨
        (¬ ((declaredClauses announce ss).foldl Seen.mark Seen.none).All announce ∧
          (declaredClauses announce ss).foldlM (accept (applyClause announce p)) st = some st')))) := by
  simp only [declareWith, Option.bind_eq_bind, Option.bind_eq_some_iff] at h
  obtain ⟨q, hq, h⟩ := h
  refine ⟨q, hq, ?_⟩
  split at h
  · next hann =>
      obtain ⟨rfl, -⟩ := Prod.mk.inj (Option.some.inj h)
      exact .inl ⟨hann, rfl⟩
  · next hann =>
      refine .inr ⟨by cases hq' : q.announced <;> cases announce <;> simp_all, ?_⟩
      obtain ⟨⟨st₁, r⟩, hloop, h⟩ := Option.bind_eq_some_iff.1 h
      cases r with
      | error what' =>
          obtain ⟨rfl, hwhat⟩ := Prod.mk.inj (Option.some.inj h)
          obtain rfl := Except.error.inj hwhat
          exact .inl (clauseLoop_error hloop)
      | ok seen =>
          dsimp only at h
          split at h
          · cases (Prod.mk.inj (Option.some.inj h)).2
          · next hall =>
              obtain ⟨rfl, -⟩ := Prod.mk.inj (Option.some.inj h)
              obtain ⟨hfold, rfl⟩ := clauseLoop_ok hloop
              exact .inr ⟨hall, hfold⟩

/-! ## Requests -/

/-- Whether a line is an announce or an update, and its clauses. -/
def declaredOf (line : CString) : Option (Bool × List Clause) :=
  match dispatch line with
  | some (.announce, ss) => some (true, declaredClauses true ss)
  | some (.update, ss) => some (false, declaredClauses false ss)
  | _ => none

theorem length_of_declaredOf (h : declaredOf line = some (announce, cls)) :
    cls.length = clauseCount announce := by
  unfold declaredOf at h
  split at h
  · obtain ⟨rfl, rfl⟩ := Prod.mk.inj (Option.some.inj h)
    exact length_clausesOf _ _ _
  · obtain ⟨rfl, rfl⟩ := Prod.mk.inj (Option.some.inj h)
    exact length_clausesOf _ _ _
  · cases h

theorem errorNotice_ne_okReply (what : CString) : errorNotice what ≠ okReply := by
  intro h
  cases congrArg List.head? h

theorem handlerCall_of_declaredOf (h : declaredOf line = some (announce, cls)) :
    ∃ handler ss, dispatch line = some (handler, ss) ∧ cls = declaredClauses announce ss ∧
      ∀ st p, Handler.call handler st p ss = declareWith announce st p ss := by
  unfold declaredOf at h
  split at h
  · next ss hdisp =>
      obtain ⟨rfl, rfl⟩ := Prod.mk.inj (Option.some.inj h)
      exact ⟨_, ss, hdisp, rfl, fun st p => handleAnnounce_eq st p ss⟩
  · next ss hdisp =>
      obtain ⟨rfl, rfl⟩ := Prod.mk.inj (Option.some.inj h)
      exact ⟨_, ss, hdisp, rfl, fun st p => handleUpdate_eq st p ss⟩
  · cases h

/-- The two outcomes of a declaration. -/
theorem handleLine_declared {reply : Option CString} (h : handleLine st p line = some (st', reply))
    (hd : declaredOf line = some (announce, cls)) : ∃ ss, cls = declaredClauses announce ss ∧
      ((∃ st₁, declareWith announce st p ss = some (st₁, .ok okReply) ∧ st' = clearErrors st₁ p ∧
          reply = some okReply) ∨
        ∃ st₁ what, declareWith announce st p ss = some (st₁, .error what) ∧ st' = countError st₁ p ∧
          reply = some (errorNotice what)) := by
  obtain ⟨handler, ss, hdisp, hcls, hcall⟩ := handlerCall_of_declaredOf hd
  have hkeyword : ((IStream.ofString line).readWord []).2 ≠ [] := by
    intro hnil
    have hnone : handlerOf [] = none := by decide
    simp [dispatch, hnil, hnone] at hdisp
  simp only [handleLine, if_neg hkeyword, hdisp, hcall] at h
  refine ⟨ss, hcls, ?_⟩
  split at h
  · cases h
  · next st₁ what hdec =>
      obtain ⟨rfl, rfl⟩ := Prod.mk.inj (Option.some.inj h)
      exact .inr ⟨st₁, what, hdec, rfl, rfl⟩
  · next st₁ text hdec =>
      obtain ⟨rfl, rfl⟩ := Prod.mk.inj (Option.some.inj h)
      obtain ⟨-, -, -, -, -, -, -, rfl⟩ := declareWith_ok hdec
      exact .inl ⟨st₁, hdec, rfl, rfl⟩

/-- A declaration that is answered `ok`. -/
theorem handleLine_ok (h : handleLine st p line = some (st', some okReply))
    (hd : declaredOf line = some (announce, cls)) :
    ∃ q st₁, st.peer p = some q ∧ q.announced = !announce ∧
      cls.foldlM (accept (applyClause announce p)) st = some st₁ ∧
      (cls.foldl Seen.mark Seen.none).All announce ∧ st' = clearErrors (conclude announce st₁ p) p := by
  obtain ⟨ss, rfl, ⟨st₁, hdec, rfl, -⟩ | ⟨st₁, what, -, -, hreply⟩⟩ := handleLine_declared h hd
  · obtain ⟨q, st₂, hq, hann, hfold, hall, rfl, -⟩ := declareWith_ok hdec
    exact ⟨q, st₂, hq, hann, hfold, hall, rfl⟩
  · exact absurd (Option.some.inj hreply).symm (errorNotice_ne_okReply what)

/-- A declaration that fails: at once, at a clause, or for want of a clause. -/
theorem handleLine_error (h : handleLine st p line = some (st', some (errorNotice what)))
    (hd : declaredOf line = some (announce, cls)) :
    ∃ q st₁, st.peer p = some q ∧ st' = countError st₁ p ∧
      ((q.announced = announce ∧ st₁ = st) ∨ (q.announced = !announce ∧
        ((∃ done c rest st₂ what', cls = done ++ c :: rest ∧
            done.foldlM (accept (applyClause announce p)) st = some st₂ ∧
            applyClause announce p st₂ c = some (st₁, .error what')) ∨
          (¬ (cls.foldl Seen.mark Seen.none).All announce ∧
            cls.foldlM (accept (applyClause announce p)) st = some st₁)))) := by
  obtain ⟨ss, rfl, ⟨st₁, -, -, hreply⟩ | ⟨st₁, what', hdec, rfl, -⟩⟩ := handleLine_declared h hd
  · exact absurd (Option.some.inj hreply) (errorNotice_ne_okReply what)
  · obtain ⟨q, hq, hcase⟩ := declareWith_error hdec
    refine ⟨q, st₁, hq, rfl, hcase.imp_right (And.imp_right (Or.imp_left ?_))⟩
    rintro ⟨done, c, rest, st₂, hcls, hfold, hc⟩
    exact ⟨done, c, rest, st₂, what', hcls, hfold, hc⟩

/-! ## Other requests -/

theorem handleLook_state {r : Except CString CString} (h : handleLook st p ss = some (st', r)) : st' = st := by
  obtain ⟨q, -, h⟩ := Option.bind_eq_some_iff.1 h
  split at h
  · exact (Prod.mk.inj (Option.some.inj h)).1.symm
  · obtain ⟨r', -, h⟩ := Option.bind_eq_some_iff.1 h
    exact (Prod.mk.inj (Option.some.inj h)).1.symm

theorem handleGetfile_state {r : Except CString CString} (h : handleGetfile st p ss = some (st', r)) :
    st' = st := by
  obtain ⟨q, -, h⟩ := Option.bind_eq_some_iff.1 h
  split at h
  · exact (Prod.mk.inj (Option.some.inj h)).1.symm
  · simp only [Option.bind_eq_bind, Option.bind_eq_some_iff] at h
    obtain ⟨f, -, x, -, text, -, hpure⟩ := h
    exact (Prod.mk.inj (Option.some.inj hpure)).1.symm

/-- A line that declares nothing changes at most the peer's count of errors. -/
theorem handleLine_other {reply : Option CString} (h : handleLine st p line = some (st', reply))
    (hd : declaredOf line = none) :
    st' = st ∨ ∃ n : Peer → Nat, st' = st.modifyPeer p fun q => { q with seqErrorCount := n q } := by
  unfold handleLine at h
  unfold declaredOf at hd
  dsimp only at h
  -- An empty line, an unknown keyword, and the handlers that declare nothing.
  split at h
  · exact .inl (Prod.mk.inj (Option.some.inj h)).1.symm
  · cases hdisp : dispatch line with
    | none =>
        rw [hdisp] at h
        exact .inr ⟨_, (Prod.mk.inj (Option.some.inj h)).1.symm⟩
    | some d =>
        obtain ⟨handler, ss⟩ := d
        rw [hdisp] at h hd
        have hcall : ∀ {st₁ r}, handler.call st p ss = some (st₁, r) → st₁ = st := by
          cases handler with
          | announce => cases hd
          | update => cases hd
          | look => exact handleLook_state
          | getfile => exact handleGetfile_state
        dsimp only at h
        split at h
        · cases h
        · next st₁ what hh =>
            obtain rfl := hcall hh
            exact .inr ⟨_, (Prod.mk.inj (Option.some.inj h)).1.symm⟩
        · next st₁ text hh =>
            obtain rfl := hcall hh
            exact .inr ⟨_, (Prod.mk.inj (Option.some.inj h)).1.symm⟩

end CppTracker
end Raiezau
