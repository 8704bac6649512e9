import Raiezau.CppTracker.Declare

/-!
# FileMgr — the set of the registered files and the map of their hashes

`look` goes through the set, `getfile` through the map.  `FileMgr::insert` puts a file into both, but the map
refuses a hash that it has: a file whose hash is registered with other sizes gets into the set alone.
-/

namespace Raiezau
namespace CppTracker

open Memory CUtil Assoc Machine

namespace FileMgr

/-- A call of `getFile`. -/
structure Call where
  fileName : CString
  entry : Entry
  deriving DecidableEq, Repr

/-- The tracker, and the files that the calls have returned. -/
structure State where
  tracker : Tracker
  returned : List Addr
  deriving DecidableEq, Repr

def State.init : State := ⟨.init, []⟩

def step (s : State) (call : Call) : Option State := do
  let (st, f) ← getFile s.tracker call.fileName call.entry.fileSize call.entry.pieceSize call.entry.hash
  some ⟨st, f :: s.returned⟩

def Step (s : State) (call : Call) (s' : State) : Prop := step s call = some s'

/-! ## What is always so -/

variable {s s' : State} {st : Tracker} {call : Call} {calls : List Call} {x y : File} {f g : Addr} {k : CString}

/-- The map holds files of the set, under their hashes. -/
structure Mapped (st : Tracker) : Prop where
  registry : Registry st
  listed : ∀ {k f}, st.fileMap.get k = some f → f ∈ st.fileSet
  live : ∀ {f}, f ∈ st.fileSet → ∃ x, st.file f = some x

theorem mapped_init : Mapped .init := by
  refine ⟨?_, ?_, ?_⟩
  · intro k f hk
    cases hk
  · intro k f hk
    cases hk
  · intro f hf
    cases hf

/-! ### Registering a file -/

theorem file_registerFile (st : Tracker) (x : File) (f : Addr) :
    (registerFile st x).1.file f = if f = st.fileHeap.fresh then some x else st.file f :=
  Heap.read_alloc _ _ _

theorem get_registerFile (st : Tracker) (x : File) (k : CString) :
    (registerFile st x).1.fileMap.get k =
      (st.fileMap.get k).or (if x.hash = k then some st.fileHeap.fresh else none) :=
  FileMap.get_insert _ _ _ _

theorem mem_registerFile : f ∈ (registerFile st x).1.fileSet ↔ f = st.fileHeap.fresh ∨ f ∈ st.fileSet :=
  PtrSet.mem_insert

theorem ne_fresh (hf : st.file f = some x) : f ≠ st.fileHeap.fresh :=
  Nat.ne_of_lt (Heap.lt_fresh_of_read hf)

theorem Mapped.registerFile (h : Mapped st) (x : File) : Mapped (registerFile st x).1 := by
  refine ⟨?_, ?_, ?_⟩
  · intro k f hk
    rw [get_registerFile, Option.or_eq_some_iff] at hk
    rcases hk with hk | ⟨-, hk⟩
    · obtain ⟨y, hy, hyk⟩ := h.registry hk
      refine ⟨y, ?_, hyk⟩
      rw [file_registerFile, if_neg (ne_fresh hy), hy]
    · rw [Option.ite_none_right_eq_some] at hk
      obtain ⟨rfl, hk⟩ := hk
      obtain rfl := Option.some.inj hk
      exact ⟨x, by rw [file_registerFile, if_pos rfl], rfl⟩
  · intro k f hk
    rw [get_registerFile, Option.or_eq_some_iff] at hk
    rw [mem_registerFile]
    rcases hk with hk | ⟨-, hk⟩
    · exact .inr (h.listed hk)
    · rw [Option.ite_none_right_eq_some] at hk
      exact .inl (Option.some.inj hk.2).symm
  · intro f hf
    rw [file_registerFile]
    rcases mem_registerFile.1 hf with rfl | hf
    · exact ⟨x, if_pos rfl⟩
    · obtain ⟨y, hy⟩ := h.live hf
      exact ⟨y, by rw [if_neg (ne_fresh hy), hy]⟩

/-- The file that a call asks for. -/
def Call.file (call : Call) : File :=
  ⟨call.fileName, call.entry.fileSize, call.entry.pieceSize, call.entry.hash, []⟩

/-- The sizes of the file registered under the hash of a call are those of the call. -/
def Agrees (st : Tracker) (call : Call) : Prop :=
  ∀ g ∈ st.fileMap.get call.entry.hash, ∀ y ∈ st.file g, y.equals call.file = true

instance (st : Tracker) (call : Call) : Decidable (Agrees st call) := by
  unfold Agrees
  infer_instance

/-- A call returns the file registered under the hash where that agrees, and registers one otherwise. -/
theorem step_cases (h : Mapped s.tracker) (call : Call) :
    (∃ g, s.tracker.fileMap.get call.entry.hash = some g ∧ Agrees s.tracker call ∧
        step s call = some ⟨s.tracker, g :: s.returned⟩) ∨
      ((s.tracker.fileMap.get call.entry.hash = none ∨ ¬ Agrees s.tracker call) ∧
        step s call = some ⟨(registerFile s.tracker call.file).1,
          s.tracker.fileHeap.fresh :: s.returned⟩) := by
  -- `getFile` looks for the hash first, and then whether what it has found is the same file.
  cases hk : s.tracker.fileMap.get call.entry.hash with
  | none =>
      refine .inr ⟨.inl rfl, ?_⟩
      simp only [step, getFile, hk, Option.bind_eq_bind, Option.bind_some]
      rfl
  | some g =>
      obtain ⟨y, hy, -⟩ := h.registry hk
      have hagrees : Agrees s.tracker call ↔ y.equals call.file = true := by
        unfold Agrees
        rw [hk]
        simp [hy]
      by_cases heq : y.equals call.file = true
      · refine .inl ⟨g, rfl, hagrees.2 heq, ?_⟩
        have heq : y.equals ⟨call.fileName, call.entry.fileSize, call.entry.pieceSize, call.entry.hash, []⟩ =
            true := heq
        simp only [step, getFile, hk, hy, heq, Option.bind_eq_bind, Option.bind_some, if_true]
        rfl
      · refine .inr ⟨.inr fun hok => heq (hagrees.1 hok), ?_⟩
        have heq : ¬ y.equals
            ⟨call.fileName, call.entry.fileSize, call.entry.pieceSize, call.entry.hash, []⟩ = true := heq
        simp only [step, getFile, hk, hy, heq, Option.bind_eq_bind, Option.bind_some]
        rfl

theorem mapped_step (h : Mapped s.tracker) (call : Call) :
    ∃ s', step s call = some s' ∧ Mapped s'.tracker := by
  rcases step_cases h call with ⟨g, -, -, hs⟩ | ⟨-, hs⟩
  · exact ⟨_, hs, h⟩
  · exact ⟨_, hs, h.registerFile call.file⟩

/-! ## Coherence -/

/-- The set and the map agree on the files, and the files returned are in the set. -/
structure Coherent (s : State) : Prop where
  resolved : ∀ f ∈ s.tracker.fileSet,
    ∃ x, s.tracker.file f = some x ∧ s.tracker.fileMap.get x.hash = some f
  distinct : ∀ f ∈ s.tracker.fileSet, ∀ g ∈ s.tracker.fileSet,
    (s.tracker.file f).map File.hash = (s.tracker.file g).map File.hash → f = g
  returned : ∀ f ∈ s.returned, f ∈ s.tracker.fileSet ∧
    ∃ x, s.tracker.file f = some x ∧ s.tracker.fileMap.get x.hash = some f

theorem coherent_of_resolved
    (hresolved : ∀ f ∈ s.tracker.fileSet,
      ∃ x, s.tracker.file f = some x ∧ s.tracker.fileMap.get x.hash = some f)
    (hreturned : ∀ f ∈ s.returned, f ∈ s.tracker.fileSet) : Coherent s := by
  refine ⟨hresolved, fun f hf g hg heq => ?_, fun f hf => ⟨hreturned f hf, hresolved f (hreturned f hf)⟩⟩
  obtain ⟨x, hx, hxf⟩ := hresolved f hf
  obtain ⟨y, hy, hyg⟩ := hresolved g hg
  rw [hx, hy] at heq
  have hhash : x.hash = y.hash := Option.some.inj heq
  rw [hhash, hyg] at hxf
  exact (Option.some.inj hxf).symm

theorem coherent_init : Coherent .init :=
  coherent_of_resolved (fun f hf => by cases hf) fun f hf => by cases hf

/-- A call keeps the set and the map coherent if and only if it agrees with the file of its hash. -/
theorem Coherent.step (hcoh : Coherent s) (hmapped : Mapped s.tracker) (hs : Step s call s') :
    Coherent s' ↔ Agrees s.tracker call := by
  rcases step_cases hmapped call with ⟨g, hg, hagrees, hstep⟩ | ⟨hnew, hstep⟩
  · obtain rfl := Option.some.inj (hs.symm.trans hstep)
    refine ⟨fun _ => hagrees, fun _ => coherent_of_resolved hcoh.resolved fun f hf => ?_⟩
    rcases List.mem_cons.1 hf with rfl | hf
    · exact hmapped.listed hg
    · exact (hcoh.returned f hf).1
  · obtain rfl := Option.some.inj (hs.symm.trans hstep)
    constructor
    · intro hafter g hg
      -- The new file is in the set, and the map has the old one under its hash.
      obtain ⟨x, hx, hxf⟩ := hafter.resolved _ (mem_registerFile.2 (.inl rfl))
      rw [file_registerFile, if_pos rfl] at hx
      obtain rfl := Option.some.inj hx
      rw [get_registerFile] at hxf
      obtain ⟨y, hy, -⟩ := hmapped.registry hg
      have hgone : (s.tracker.fileMap.get call.entry.hash).or
          (if call.file.hash = call.entry.hash then some s.tracker.fileHeap.fresh else none) =
            some s.tracker.fileHeap.fresh := hxf
      rw [Option.mem_def.1 hg, Option.some_or] at hgone
      exact absurd (Option.some.inj hgone) (ne_fresh hy)
    · intro hagrees
      have hnone : s.tracker.fileMap.get call.entry.hash = none := hnew.resolve_right fun h => h hagrees
      refine coherent_of_resolved (fun f hf => ?_) fun f hf => ?_
      · dsimp only
        rcases mem_registerFile.1 hf with rfl | hf
        · refine ⟨call.file, by rw [file_registerFile, if_pos rfl], ?_⟩
          rw [get_registerFile]
          show (s.tracker.fileMap.get call.entry.hash).or _ = _
          rw [hnone, Option.none_or, if_pos rfl]
        · obtain ⟨x, hx, hxf⟩ := hcoh.resolved f hf
          refine ⟨x, by rw [file_registerFile, if_neg (ne_fresh hx), hx], ?_⟩
          rw [get_registerFile, hxf, Option.some_or]
      · rcases List.mem_cons.1 hf with rfl | hf
        · exact mem_registerFile.2 (.inl rfl)
        · exact mem_registerFile.2 (.inr (hcoh.returned f hf).1)

/-- All calls can be made, and the set and the map are coherent after each of them if and only if each
agrees with the file then registered under its hash. -/
theorem along_coherent_iff (calls : List Call) :
    ∃ h s, replay step [] State.init calls = some (h, s) ∧ Run Step State.init h s ∧
      (Along (fun _ => Coherent) h s ↔ StepsMeet (fun _ s => Agrees s.tracker) h) := by
  have hinit : Mapped State.init.tracker := mapped_init
  obtain ⟨h, s, hre⟩ := Run.exists_replay (I := fun s : State => Mapped s.tracker)
    (fun call hmapped => mapped_step hmapped call) hinit calls
  have hrun : Run Step State.init h s := Run.of_replay id .start hre
  refine ⟨h, s, hre, hrun, ?_⟩
  refine Run.along_iff_stepsMeet_of_invariant (I := fun s : State => Mapped s.tracker) coherent_init
    hinit (fun _ hmapped hcoh hs => ⟨hcoh.step hmapped hs, fun _ => ?_⟩) hrun
  obtain ⟨s'', hstep, hmapped'⟩ := mapped_step hmapped _
  obtain rfl := Option.some.inj (hs.symm.trans hstep)
  exact hmapped'

/-- Two calls with one hash and two sizes: the second file is in the set, and the map has the first. -/
theorem listed_not_resolved :
    ∃ h s, replay step [] State.init
        [⟨"a".toList, ⟨10, 5, "h".toList⟩⟩, ⟨"b".toList, ⟨20, 5, "h".toList⟩⟩] = some (h, s) ∧
      s.returned = [1, 0] ∧ s.tracker.fileSet = [0, 1] ∧
      s.tracker.file 1 = some ⟨"b".toList, 20, 5, "h".toList, []⟩ ∧
      s.tracker.fileMap.get "h".toList = some 0 ∧ ¬ Coherent s := by
  refine ⟨_, _, rfl, by decide, by decide, by decide, by decide, fun hcoh => ?_⟩
  obtain ⟨x, hx, hxf⟩ := hcoh.resolved 1 (by decide)
  obtain rfl := Option.some.inj hx
  revert hxf
  decide

end FileMgr

end CppTracker
end Raiezau
