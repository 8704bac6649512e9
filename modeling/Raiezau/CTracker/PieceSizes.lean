import Raiezau.CTracker.Refusal

/-!
# PieceSizes — the piece sizes of declared files

A seed clause comes in entries of four tokens, and the third of an entry is turned into an `unsigned` of 32 bits
before the file is cut into pieces.  Only an entry with a key that is not known yet gets that far.
-/

namespace Raiezau
namespace CTracker

open Memory CUtil Text

variable {st st₁ : Tracker} {name size piece key seedStr req : CString} {seen tab : List CString}

/-! ## Seed clauses -/

/-- The seed clause of an `announce` or `update` that matches its pattern. -/
def seedClause (req : CString) : Option CString :=
  match dispatch req with
  | some (.announce, v) => (regexec announceRegexp v).map fun pm => substr v (slot pm 2).so (slot pm 2).eo
  | some (.update, v) => (regexec updateRegexp v).map fun pm => substr v (slot pm 1).so (slot pm 1).eo
  | _ => none

/-- The tokens that are gone through: none if they do not come in fours. -/
def seedEntries (seedStr : CString) : List CString :=
  let tab := stringSplit seedStr [' ']
  if tab.length % 4 ≠ 0 then [] else tab

theorem getSeedFileList_eq (st : Tracker) (seedStr : CString) :
    getSeedFileList st seedStr = getSeedFiles st (seedEntries seedStr) := by
  rw [getSeedFileList, seedEntries]
  by_cases hfour : (stringSplit seedStr [' ']).length % 4 ≠ 0
  · rw [if_pos hfour, if_pos hfour]
    rfl
  · rw [if_neg hfour, if_neg hfour]

/-- The sizes in the entries that register a key.  `seen` holds the keys of the entries before. -/
def newPieces (st : Tracker) : List CString → List CString → List CString
  | seen, _ :: _ :: piece :: key :: tab =>
      if fileGetByKey st key ≠ none ∨ key ∈ seen then newPieces st (key :: seen) tab
      else piece :: newPieces st (key :: seen) tab
  | _, _ => []

/-- A number that is the piece size of a file. -/
def Representable (piece : CString) : Prop := ∃ n ∈ writtenNumber piece, 1 ≤ n ∧ n < 2 ^ 32

instance (piece : CString) : Decidable (Representable piece) :=
  inferInstanceAs (Decidable (∃ n ∈ writtenNumber piece, 1 ≤ n ∧ n < 2 ^ 32))

/-! ## One entry -/

/-- The entry is processed without a fault, a file that is there afterwards and was not before has the size it
writes, and nothing happens if no file can have that size. -/
def EntryKept (st : Tracker) (name size piece key : CString) : Prop :=
  ∃ st' f, fileGetOrCreate st name (atol size) (atoi piece) key = some (st', f) ∧
    (∀ g x, st.file g = none → st'.file g = some x →
      1 ≤ x.pieceSize ∧ writtenNumber piece = some (x.pieceSize : Int)) ∧
    (¬ Representable piece → st' = st)

theorem toUInt32_toInt32 (n : Int) : toUInt32 (toInt32 n) = toUInt32 n := by
  have hmod : n.bmod (2 ^ 32 : Nat) % (2 ^ 32 : Nat) = n % (2 ^ 32 : Nat) := Int.bmod_emod
  exact congrArg Int.toNat hmod

theorem toUInt32_atoi {n : Nat} (h : writtenNumber piece = some (n : Int)) (hn : n < 2 ^ 32) :
    toUInt32 (atoi piece) = n := by
  have hread : atol piece = n :=
    atol_of_written h (by unfold longMin; omega) (by unfold longMax; omega)
  rw [atoi, toUInt32_toInt32, hread, toUInt32_natCast, Nat.mod_eq_of_lt hn]

theorem toUInt32_lt (n : Int) : toUInt32 n < 2 ^ 32 := by
  unfold toUInt32
  omega

theorem file_fileNew (st : Tracker) (filename key : CString) (length : Nat) {pieceSize : Nat} (hp : pieceSize ≠ 0) :
    ∃ st' x, fileNew st filename length pieceSize key = some (st', st.fileHeap.fresh) ∧
      x.pieceSize = pieceSize ∧ ∀ g, st'.file g = if g = st.fileHeap.fresh then some x else st.file g := by
  rw [fileNew, if_neg hp]
  exact ⟨_, _, rfl, rfl, fun g => Heap.read_alloc _ _ _⟩

/-- A key that is known needs no piece size; any other needs one that a file can have. -/
theorem entryKept_iff : EntryKept st name size piece key ↔ fileGetByKey st key ≠ none ∨ Representable piece := by
  unfold EntryKept fileGetOrCreate
  cases hk : fileGetByKey st key with
  | some f =>
      refine iff_of_true ⟨st, f, rfl, fun g x hnone hsome => ?_, fun _ => rfl⟩ (.inl (Option.some_ne_none f))
      rw [hnone] at hsome
      cases hsome
  | none =>
      simp only [ne_eq, not_true_eq_false, false_or]
      constructor
      · rintro ⟨st', f, hnew, hcreated, -⟩
        have hp : toUInt32 (atoi piece) ≠ 0 := fileNew_isSome.1 (by rw [hnew]; rfl)
        obtain ⟨st₁, x, hnew₁, hsize, hfile⟩ := file_fileNew st name key (toUInt32 (atol size)) hp
        obtain ⟨rfl, -⟩ := Prod.mk.inj (Option.some.inj (hnew.symm.trans hnew₁))
        have hfresh : st.file st.fileHeap.fresh = none := Heap.read_fresh _
        obtain ⟨hpos, hwritten⟩ := hcreated _ x hfresh (by rw [hfile, if_pos rfl])
        have hlt := toUInt32_lt (atoi piece)
        exact ⟨_, hwritten, by omega, by omega⟩
      · rintro ⟨n, hwritten, hpos, hlt⟩
        obtain ⟨m, rfl⟩ := Int.eq_ofNat_of_zero_le (Int.le_trans (by decide) hpos)
        have hsize : toUInt32 (atoi piece) = m := toUInt32_atoi hwritten (by omega)
        obtain ⟨st₁, x, hnew, hx, hfile⟩ :=
          file_fileNew st name key (toUInt32 (atol size)) (show toUInt32 (atoi piece) ≠ 0 by omega)
        refine ⟨st₁, _, hnew, fun g y hnone hsome => ?_, fun hno => absurd ⟨_, hwritten, hpos, hlt⟩ hno⟩
        rw [hfile] at hsome
        split at hsome
        · obtain rfl := Option.some.inj hsome
          rw [hx, hsize]
          exact ⟨by omega, hwritten⟩
        · rw [hnone] at hsome
          cases hsome

/-! ## All entries -/

/-- Every entry, when its turn comes, is processed as it should. -/
def EntriesKept (st : Tracker) (tab : List CString) : Prop :=
  ∀ done name size piece key rest, tab = done ++ name :: size :: piece :: key :: rest → done.length % 4 = 0 →
    ∃ st₁ l, getSeedFiles st done = some (st₁, l) ∧ EntryKept st₁ name size piece key

/-- The clause is processed without a division by zero, and every entry as it should. -/
structure PiecesKept (st : Tracker) (seedStr : CString) : Prop where
  processed : ∃ st' l, getSeedFileList st seedStr = some (st', l)
  entries : EntriesKept st (seedEntries seedStr)

theorem entriesKept_short (hshort : ∀ name size piece key rest, tab ≠ name :: size :: piece :: key :: rest) :
    EntriesKept st tab := by
  rintro done name size piece key rest rfl hfour
  match done with
  | [] => exact absurd rfl (hshort _ _ _ _ _)
  | [_] | [_, _] | [_, _, _] => simp at hfour
  | _ :: _ :: _ :: _ :: done => exact absurd rfl (hshort _ _ _ _ _)

theorem entriesKept_cons : EntriesKept st (name :: size :: piece :: key :: tab) ↔
    EntryKept st name size piece key ∧
      ∀ st₁ f, fileGetOrCreate st name (atol size) (atoi piece) key = some (st₁, f) → EntriesKept st₁ tab := by
  constructor
  · intro h
    obtain ⟨st', l, hnil, hentry⟩ := h [] name size piece key tab rfl rfl
    obtain ⟨rfl, -⟩ := Prod.mk.inj (Option.some.inj hnil)
    refine ⟨hentry, ?_⟩
    rintro st₁ f hget done name' size' piece' key' rest rfl hfour
    obtain ⟨st₂, l', hdone, hkept⟩ := h (name :: size :: piece :: key :: done) name' size' piece' key' rest rfl (by
      simp only [List.length_cons]
      omega)
    rw [getSeedFiles, hget, Option.bind_eq_bind, Option.bind_some] at hdone
    obtain ⟨⟨st₃, l₃⟩, hrest, hpure⟩ := Option.bind_eq_some_iff.1 hdone
    obtain ⟨rfl, -⟩ := Prod.mk.inj (Option.some.inj hpure)
    exact ⟨_, _, hrest, hkept⟩
  · rintro ⟨hentry, htail⟩ done name' size' piece' key' rest heq hfour
    -- The entry is the first one, or it is behind the first one; a part of an entry is none.
    rcases done with _ | ⟨_, _ | ⟨_, _ | ⟨_, _ | ⟨_, done⟩⟩⟩⟩
    · cases heq
      exact ⟨st, [], rfl, hentry⟩
    · simp at hfour
    · simp at hfour
    · simp at hfour
    · obtain ⟨rfl, rfl, rfl, rfl, rfl⟩ : _ = _ ∧ _ = _ ∧ _ = _ ∧ _ = _ ∧ _ = _ := by simpa using heq
      obtain ⟨st₁, f, hget, -⟩ := hentry
      obtain ⟨st₂, l, hdone, hkept⟩ := htail st₁ f hget done name' size' piece' key' rest rfl (by
        simp only [List.length_cons] at hfour
        omega)
      refine ⟨st₂, f :: l, ?_, hkept⟩
      simp only [getSeedFiles, hget, hdone, Option.bind_eq_bind, Option.bind_some]
      rfl

/-- Each entry goes by what the ones before it have registered. -/
theorem getSeedFiles_kept_iff (hreg : Registry st₁)
    (hseen : ∀ k, fileGetByKey st₁ k ≠ none ↔ fileGetByKey st k ≠ none ∨ k ∈ seen) :
    ((∃ st' l, getSeedFiles st₁ tab = some (st', l)) ∧ EntriesKept st₁ tab) ↔
      ∀ piece ∈ newPieces st seen tab, Representable piece := by
  induction st₁, tab using getSeedFiles.induct generalizing seen with
  | case1 st₁ name size piece key tab ih =>
      have hentry : EntryKept st₁ name size piece key ↔
          (fileGetByKey st key ≠ none ∨ key ∈ seen) ∨ Representable piece := by
        rw [entryKept_iff, hseen]
      have hnew : (∀ p ∈ newPieces st seen (name :: size :: piece :: key :: tab), Representable p) ↔
          ((fileGetByKey st key ≠ none ∨ key ∈ seen) ∨ Representable piece) ∧
            ∀ p ∈ newPieces st (key :: seen) tab, Representable p := by
        rw [newPieces]
        split
        · next hold => exact ⟨fun h => ⟨.inl hold, h⟩, And.right⟩
        · next hnew => rw [List.forall_mem_cons, or_iff_right hnew]
      rw [hnew, ← hentry, entriesKept_cons]
      constructor
      · rintro ⟨⟨st', l, hall⟩, hkept, htail⟩
        refine ⟨hkept, ?_⟩
        obtain ⟨st₂, f, hget, -⟩ := hkept
        rw [getSeedFiles, hget, Option.bind_eq_bind, Option.bind_some] at hall
        obtain ⟨⟨st₃, l₃⟩, hrest, -⟩ := Option.bind_eq_some_iff.1 hall
        exact (ih st₂ (fileGetOrCreate_spec hreg hget).1 (seen_of_get hreg hseen hget)).1
          ⟨⟨st₃, l₃, hrest⟩, htail st₂ f hget⟩
      · rintro ⟨hkept, hpieces⟩
        obtain ⟨st₂, f, hget, hrest⟩ := id hkept
        obtain ⟨⟨st', l, hall⟩, htail⟩ :=
          (ih st₂ (fileGetOrCreate_spec hreg hget).1 (seen_of_get hreg hseen hget)).2 hpieces
        refine ⟨⟨st', f :: l, ?_⟩, hkept, fun st₃ g hget' => ?_⟩
        · simp only [getSeedFiles, hget, hall, Option.bind_eq_bind, Option.bind_some]
          rfl
        · obtain ⟨rfl, -⟩ := Prod.mk.inj (Option.some.inj (hget.symm.trans hget'))
          exact htail
  | case2 tab st₁ hshort =>
      rw [getSeedFiles, newPieces]
      · exact iff_of_true ⟨⟨st₁, [], rfl⟩, entriesKept_short fun _ _ _ _ _ => hshort _ _ _ _ _⟩ (by simp)
      · exact hshort
      · exact hshort

/-! ## Requests -/

theorem piecesOk_congr {st' : Tracker} (hkey : ∀ k, fileGetByKey st' k = fileGetByKey st k) :
    PiecesOk st' seen tab ↔ PiecesOk st seen tab := by
  induction seen, tab using PiecesOk.induct with
  | case1 seen _ _ piece key tab ih => rw [PiecesOk, PiecesOk, hkey, ih]
  | case2 seen tab hshort =>
      rw [PiecesOk, PiecesOk]
      · exact hshort
      · exact hshort

/-- A division by zero in its seed clause takes the request down. -/
theorem handleRequest_faults {c : Addr} (hreg : Registry st) (hclause : seedStr ∈ seedClause req)
    (hfault : getSeedFileList st seedStr = none) : handleRequest st c req = none := by
  have hport : ∀ port, getSeedFileList (clientSetListeningPort st c port) seedStr = none := by
    intro port
    have hreg' : Registry (clientSetListeningPort st c port) := hreg.congr (fun _ => rfl) rfl
    have hsame : PiecesOk (clientSetListeningPort st c port) [] (stringSplit seedStr [' ']) ↔
        PiecesOk st [] (stringSplit seedStr [' ']) := piecesOk_congr fun _ => rfl
    rw [← Option.not_isSome_iff_eq_none, getSeedFileList_isSome hreg', hsame, ← getSeedFileList_isSome hreg, hfault]
    exact Bool.false_ne_true
  rw [handleRequest_dispatch]
  unfold seedClause at hclause
  split at hclause
  · next v hd =>
      obtain ⟨pm, hre, rfl⟩ := Option.map_eq_some_iff.1 hclause
      have hparse : announceMatchAndParse st c v pm = none := by
        have hslots : slot ((pm.set 1 (slot pm 0)).drop 1) 1 = slot pm 2 := by
          simp [slot]
        simp only [announceMatchAndParse, seedLeechMatchAndParse, hslots, hport, Option.bind_eq_bind, Option.bind_none]
      simp only [hd, Handler.call, protAnnounce, hre, hparse, Option.bind_eq_bind, Option.bind_none, Option.map_none]
  · next v hd =>
      obtain ⟨pm, hre, rfl⟩ := Option.map_eq_some_iff.1 hclause
      have hparse : updateMatchAndParse st c v pm = none := by
        simp only [updateMatchAndParse, seedLeechMatchAndParse, hfault, Option.bind_eq_bind, Option.bind_none]
      simp only [hd, Handler.call, protUpdate, hre, hparse, Option.bind_eq_bind, Option.bind_none, Option.map_none]
  · cases hclause

/-- The seed clause of a request is processed without a division by zero, and each entry creates no file or one with
the piece size it writes, if every entry with a new key writes a number from one to the greatest `uint32_t`. -/
theorem piecesKept_iff (hreg : Registry st) :
    (∀ seedStr ∈ seedClause req, PiecesKept st seedStr) ↔
      ∀ seedStr ∈ seedClause req, ∀ piece ∈ newPieces st [] (seedEntries seedStr), Representable piece := by
  refine forall₂_congr fun seedStr _ => ?_
  rw [← getSeedFiles_kept_iff hreg (by simp), ← getSeedFileList_eq]
  exact ⟨fun h => ⟨h.processed, h.entries⟩, fun h => ⟨h.1, h.2⟩⟩

/-- Two files, the second in pieces of the greatest size. -/
def updateTwo : CString := "update seed [film 10 4 k1 song 7 4294967295 k2] leech []".toList

theorem seedClause_updateTwo : seedClause updateTwo = some "film 10 4 k1 song 7 4294967295 k2".toList := by
  decide +kernel

theorem piecesKept_two :
    (seedClause updateTwo).isSome ∧ ∀ seedStr ∈ seedClause updateTwo, PiecesKept Tracker.init seedStr := by
  refine ⟨by rw [seedClause_updateTwo]; rfl, (piecesKept_iff wellFormed_init.toRegistry).2 fun seedStr hclause => ?_⟩
  rw [seedClause_updateTwo] at hclause
  obtain rfl := Option.some.inj hclause
  decide +kernel

/-- A file in pieces of no bytes. -/
def announceNoPieces : CString := "announce listen 6881 seed [film 10 0 k1] leech []".toList

theorem pieces_divide_by_zero : ¬ ∀ (st : Tracker) (req : CString), Registry st →
    ∀ seedStr ∈ seedClause req, PiecesKept st seedStr := by
  intro h
  have hclause : seedClause announceNoPieces = some "film 10 0 k1".toList := by decide +kernel
  have hfault : getSeedFileList Tracker.init "film 10 0 k1".toList = none := by decide +kernel
  obtain ⟨st', l, hgo⟩ := (h Tracker.init announceNoPieces wellFormed_init.toRegistry _ hclause).processed
  rw [hfault] at hgo
  cases hgo

end CTracker
end Raiezau
