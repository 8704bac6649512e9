import Raiezau.CppTracker.Failure

/-!
# Totality — clauses that do not throw do not fault

What `parseAnnounceSeed` and `parseAnnounceLeech` dereference comes from the file map, and its files are there.  So an
announce is accepted exactly if its three clauses are fine and of different kinds.
-/

namespace Raiezau
namespace CppTracker

open Memory CUtil Machine

variable {st : Tracker} {p f : Addr} {q : Peer} {ss : IStream} {announce : Bool} {cls : List Clause}
  {apply : Tracker → Clause → Option (Result Unit)}

/-! ## Lists of files -/

theorem addPeer_total {x : File} (hx : st.file f = some x) (p : Addr) (u : Peer → Peer) :
    ∃ st', addPeer (st.modifyPeer p u) p f = some st' := by
  have hx' : (st.modifyPeer p u).file f = some x := hx
  unfold addPeer
  rw [hx']
  exact ⟨_, rfl⟩

theorem getFile_total (hreg : Registry st) (name : CString) (size piece : Nat) (hash : CString) :
    ∃ st₁ f x, getFile st name size piece hash = some (st₁, f) ∧ st₁.file f = some x := by
  obtain ⟨⟨st₁, f⟩, hget⟩ : ∃ r, getFile st name size piece hash = some r := by
    -- Both the file that is found and the one that is made are in the heap.
    unfold getFile
    cases hk : st.fileMap.get hash with
    | none => exact ⟨_, rfl⟩
    | some g =>
        obtain ⟨y, hy, -⟩ := hreg hk
        simp only [hy, Option.bind_eq_bind, Option.bind_some]
        split
        · exact ⟨_, rfl⟩
        · exact ⟨_, rfl⟩
  have hfinds : Finds ⟨size, piece, hash⟩ f st st₁ := getFile_finds hreg hget
  obtain ⟨x, hx, -⟩ := hfinds.file
  exact ⟨st₁, f, x, hget, hx⟩

theorem seedEntry_total (hreg : Registry st) (p : Addr) (name size piece hash : CString) :
    ∃ st', seedEntry p st name size piece hash = some st' ∧ Registry st' := by
  obtain ⟨st', hst'⟩ : ∃ st', seedEntry p st name size piece hash = some st' := by
    unfold seedEntry
    split
    · next fileSize pieceSize _ _ =>
        obtain ⟨st₁, f, x, hget, hx⟩ := getFile_total hreg name fileSize pieceSize hash
        simp only [hget, hx, Option.bind_eq_bind, Option.bind_some]
        exact addPeer_total hx p _
    · exact ⟨st, rfl⟩
  refine ⟨st', hst', ?_⟩
  rcases seedEntry_inv hreg hst' with ⟨-, rfl⟩ | ⟨e, f, st₁, -, -, hfinds, hrec⟩
  · exact hreg
  · obtain ⟨x, hx, -⟩ := hfinds.file
    exact (hrec.enrolled hfinds.registry hx).registry

theorem seedEntries_total (hreg : Registry st) (p : Addr) (v : List CString) : ∃ st', seedEntries p st v = some st' := by
  -- Four tokens at a time; an entry keeps the registry whatever it does.
  induction st, v using seedEntries.induct with
  | case1 st name size piece hash v ih =>
      obtain ⟨st₁, hone, hreg₁⟩ := seedEntry_total hreg p name size piece hash
      rw [seedEntries, hone, Option.bind_eq_bind, Option.bind_some]
      exact ih st₁ hreg₁
  | case2 v st hshort =>
      rw [seedEntries]
      · exact ⟨st, rfl⟩
      · exact hshort

theorem leechEntry_total (hreg : Registry st) (p : Addr) (hash : CString) :
    ∃ st', leechEntry p st hash = some st' ∧ Registry st' := by
  obtain ⟨st', hst'⟩ : ∃ st', leechEntry p st hash = some st' := by
    unfold leechEntry
    cases hk : st.fileMap.get hash with
    | none => exact ⟨st, rfl⟩
    | some f =>
        obtain ⟨x, hx, -⟩ := hreg hk
        simp only [hx, Option.bind_eq_bind, Option.bind_some]
        exact addPeer_total hx p _
  refine ⟨st', hst', ?_⟩
  rcases leechEntry_inv hreg hst' with ⟨-, rfl⟩ | ⟨f, x, -, hx, hrec⟩
  · exact hreg
  · exact (hrec.enrolled hreg hx).registry

/-! ## Clauses -/

theorem announceClause_total (hreg : Registry st) (p : Addr) {c : Clause} (hc : c.Fine true) :
    ∃ st', announceClause p st c = some (st', .ok ()) := by
  cases c with
  | listen argument =>
      obtain ⟨port, hport⟩ := Option.ne_none_iff_exists'.1 hc.2
      rw [announceClause, hport]
      exact ⟨_, rfl⟩
  | seed text =>
      have hcount : ¬ (tokens text).length % 4 ≠ 0 := fun hne => hne (hc rfl)
      have henr := enrolled_modifyPeer hreg p fun q => { q with seed := [] }
      obtain ⟨st', hst'⟩ := seedEntries_total henr.registry p (tokens text)
      simp only [announceClause, parseAnnounceSeed, if_neg hcount, hst']
      exact ⟨st', rfl⟩
  | leech text =>
      have henr := enrolled_modifyPeer hreg p fun q => { q with leech := [] }
      obtain ⟨st', hst', -⟩ := foldlM_total (l := tokens text) (fun {_ hash} _ hI => leechEntry_total hI p hash)
        henr.registry
      simp only [announceClause, parseAnnounceLeech, hst']
      exact ⟨st', rfl⟩
  | unexpected keyword => exact hc.elim

theorem announce_foldlM_total (hreg : Registry st) (hq : st.peer p = some q) (hcls : ∀ c ∈ cls, c.Fine true) :
    ∃ st', cls.foldlM (accept (applyClause true p)) st = some st' := by
  have hstep : ∀ {st c}, c ∈ cls → (Registry st ∧ ∃ q, st.peer p = some q) →
      ∃ st', accept (applyClause true p) st c = some st' ∧ Registry st' ∧ ∃ q, st'.peer p = some q := by
    rintro st c hc ⟨hreg, q, hq⟩
    obtain ⟨st', hst'⟩ := announceClause_total hreg p (hcls c hc)
    -- The peer is still there after the clause.
    have hone : [c].foldlM (accept (announceClause p)) st = some st' := by
      rw [List.foldlM_cons, accept_eq_some.2 hst']
      rfl
    obtain ⟨l, q', hread⟩ := announceRead_of_foldlM hreg hq hone
    exact ⟨st', accept_eq_some.2 hst', hread.registry, q', hread.peer⟩
  obtain ⟨st', hst', -⟩ := foldlM_total hstep ⟨hreg, q, hq⟩
  exact ⟨st', hst'⟩

/-! ## The handler -/

theorem clauseLoop_of_foldlM {st' : Tracker} {n : Nat} {s : Scan} {seen : Seen}
    (h : (clausesOf announce n s).foldlM (accept apply) st = some st') :
    clauseLoop apply announce n st s seen = some (st', .ok ((clausesOf announce n s).foldl Seen.mark seen)) := by
  -- The loop does not read on after a clause that throws; here none does.
  induction n generalizing st s seen with
  | zero =>
      obtain rfl := Option.some.inj h
      rfl
  | succ n ih =>
      rw [clausesOf, List.foldlM_cons, Option.bind_eq_bind, Option.bind_eq_some_iff] at h
      obtain ⟨st₁, hone, hrest⟩ := h
      rw [clauseLoop_succ, accept_eq_some.1 hone]
      exact ih hrest

/-- Which announces of a peer that has not announced yet are accepted. -/
theorem handleAnnounce_ok_iff (hreg : Registry st) (hq : st.peer p = some q) (hann : q.announced = false) :
    (∃ st' reply, handleAnnounce st p ss = some (st', .ok reply)) ↔ GoesThrough true (declaredClauses true ss) := by
  constructor
  · rintro ⟨st', reply, h⟩
    rw [handleAnnounce_eq] at h
    obtain ⟨q', st₁, -, -, hfold, hall, -, -⟩ := declareWith_ok h
    exact ⟨fine_of_foldlM hfold, hall⟩
  · rintro ⟨hfine, hall⟩
    obtain ⟨st₁, hfold⟩ := announce_foldlM_total hreg hq hfine
    have hloop : clauseLoop (applyClause true p) true (clauseCount true) st (Scan.start ss) Seen.none =
        some (st₁, .ok ((declaredClauses true ss).foldl Seen.mark Seen.none)) := clauseLoop_of_foldlM hfold
    refine ⟨conclude true st₁ p, okReply, ?_⟩
    rw [handleAnnounce_eq, declareWith, hq, Option.bind_eq_bind, Option.bind_some, if_neg (by simp [hann]), hloop,
      Option.bind_eq_bind, Option.bind_some]
    exact if_pos hall

end CppTracker
end Raiezau
