import Raiezau.JavaClient.Reception
import Raiezau.Machine.Run

/-!
# FileTables — the two tables of the file manager

`FileManager` keeps its files by key and by name.  All three ways in end in `insertFile`, which looks at the name only;
`addFile` has looked at the key before, the others have not.
-/

namespace Raiezau
namespace JavaClient

open CUtil Machine Assoc

/-! ## Model -/

/-- The two tables of `FileManager`. -/
structure FileTables where
  filesByKey : Table CString File
  filesByName : Table CString File
  deriving DecidableEq, Repr

namespace FileTables

/-- A name that is taken keeps its file. -/
def insertFile (m : FileTables) (newFile : File) : File × FileTables :=
  match m.filesByName.lookup newFile.name with
  | some f => (f, m)
  | none =>
      (newFile,
        { filesByKey := m.filesByKey.put newFile.key newFile
          filesByName := m.filesByName.put newFile.name newFile })

/-- `FileManager.addFile`.  `disk` is what is stored under a name, if it can be opened. -/
def addFile (disk : CString → Option (List UInt8)) (m : FileTables) (e : LookEntry) :
    Except JavaError File × FileTables :=
  match m.filesByKey.lookup e.key with
  | some f => (.ok f, m)
  | none =>
      match disk e.name with
      | none => (.error .io, m)
      | some content =>
          match File.incomplete e.name e.length e.pieceSize e.key content with
          | .error x => (.error x, m)
          | .ok newFile => (.ok (m.insertFile newFile).1, (m.insertFile newFile).2)

section Config

-- The hash, and the configured size of a piece.
variable (md5Hash : List UInt8 → CString) (pieceSize : Int)

/-- `addCompleteFile`; `stored` is what is found under the name, if it can be opened. -/
def addCompleteFile (m : FileTables) (name : CString) (stored : Option (List UInt8)) :
    Except JavaError File × FileTables :=
  match stored with
  | none => (.error .io, m)
  | some content =>
      match File.seed md5Hash name pieceSize content with
      | .error x => (.error x, m)
      | .ok newFile => (.ok (m.insertFile newFile).1, (m.insertFile newFile).2)

end Config

/-- `loadIncompleteFile`; `f` is what `restoreFileState` gives, and the call throws on a null. -/
def loadIncompleteFile (m : FileTables) (f : Option File) : FileTables :=
  match f with
  | none => m
  | some f => (m.insertFile f).2

/-- A call, with what it finds on the disk. -/
inductive Call
  | addFile (e : LookEntry) (stored : Option (List UInt8))
  | addCompleteFile (name : CString) (stored : Option (List UInt8))
  | loadIncompleteFile (f : Option File)
  deriving DecidableEq, Repr

section Config

variable (md5Hash : List UInt8 → CString) (pieceSize : Int)

def perform (m : FileTables) : Call → FileTables
  | .addFile e stored => (m.addFile (fun _ => stored) e).2
  | .addCompleteFile name stored => (m.addCompleteFile md5Hash pieceSize name stored).2
  | .loadIncompleteFile f => m.loadIncompleteFile f

def Step (m : FileTables) (c : Call) (m' : FileTables) : Prop := m' = m.perform md5Hash pieceSize c

/-- A file that has the name or the key of another one is not put into the tables: `addFile` gets none with a taken
name under a new key, the other two none with a taken key under a new name. -/
def Apart (m : FileTables) : Call → Prop
  | .addFile e stored => (m.filesByKey.lookup e.key).isSome ∨ m.filesByName.lookup e.name = none ∨
      ∀ content ∈ stored, ∀ f, File.incomplete e.name e.length e.pieceSize e.key content ≠ .ok f
  | .addCompleteFile name stored => (m.filesByName.lookup name).isSome ∨
      ∀ content ∈ stored, ∀ f, File.seed md5Hash name pieceSize content = .ok f →
        m.filesByKey.lookup (md5Hash content) = none
  | .loadIncompleteFile f => ∀ f' ∈ f, (m.filesByName.lookup f'.name).isSome ∨ m.filesByKey.lookup f'.key = none

end Config

/-- Both tables hold the same files, each under its key and its name. -/
structure Coherent (m : FileTables) : Prop where
  key_eq : ∀ {k f}, m.filesByKey.lookup k = some f → f.key = k
  byKey : ∀ {name f}, m.filesByName.lookup name = some f → m.filesByKey.lookup f.key = some f
  byName : ∀ {k f}, m.filesByKey.lookup k = some f → m.filesByName.lookup f.name = some f

/-- The tables are coherent, and the last call, if it was an `addFile` that returned, gave a file of the key it was
asked for. -/
structure Managed (h : History FileTables Call) (m : FileTables) : Prop where
  coherent : m.Coherent
  own : ∀ m₀ e stored, h.head? = some (m₀, .addFile e stored) →
    ∀ f, (m₀.addFile (fun _ => stored) e).1 = .ok f → f.key = e.key

theorem coherent_empty : Coherent ⟨[], []⟩ := by
  constructor <;> intro _ _ hf <;> cases hf

/-! ## Insertion -/

variable {md5Hash : List UInt8 → CString} {pieceSize : Int} {m m' : FileTables} {f : File} {e : LookEntry}
  {stored : Option (List UInt8)} {h : History FileTables Call} {c : Call}

theorem insertFile_of_some {f' : File} (hname : m.filesByName.lookup f.name = some f') :
    m.insertFile f = (f', m) := by
  rw [insertFile, hname]

theorem insertFile_of_none (hname : m.filesByName.lookup f.name = none) : m.insertFile f = (f,
    { filesByKey := m.filesByKey.put f.key f
      filesByName := m.filesByName.put f.name f }) := by
  rw [insertFile, hname]

/-- The tables stay coherent exactly if not just the key is taken. -/
theorem coherent_insertFile_iff (hm : m.Coherent) : (m.insertFile f).2.Coherent ↔
    (m.filesByName.lookup f.name).isSome ∨ m.filesByKey.lookup f.key = none := by
  cases hname : m.filesByName.lookup f.name with
  | some f' =>
      rw [insertFile_of_some hname]
      exact iff_of_true hm (.inl Option.isSome_some)
  | none =>
      rw [insertFile_of_none hname]
      constructor
      · intro hm'
        refine .inr (Option.eq_none_iff_forall_ne_some.2 fun g hg => ?_)
        -- The file that has the key is still found by its name, but not by its key.
        have hne : g.name ≠ f.name := by
          intro heq
          have hfound := hm.byName hg
          rw [heq, hname] at hfound
          cases hfound
        have hold : (m.filesByName.put f.name f).lookup g.name = some g := by
          rw [Table.lookup_put, if_neg hne]
          exact hm.byName hg
        have hnew := hm'.byKey hold
        rw [Table.lookup_put, if_pos (hm.key_eq hg)] at hnew
        exact hne (congrArg File.name (Option.some.inj hnew)).symm
      · intro hkey
        have hfree : m.filesByKey.lookup f.key = none := hkey.resolve_left nofun
        -- Neither its key nor its name was there: the new entries hide no other.
        refine ⟨fun {k g} hg => ?_, fun {name g} hg => ?_, fun {k g} hg => ?_⟩
        · rw [Table.lookup_put] at hg
          split at hg
          · next hk => exact (congrArg File.key (Option.some.inj hg)).symm.trans hk.symm
          · exact hm.key_eq hg
        · rw [Table.lookup_put] at hg ⊢
          split at hg
          · obtain rfl := Option.some.inj hg
            rw [if_pos rfl]
          · have hfound := hm.byKey hg
            have hne : g.key ≠ f.key := by
              intro heq
              rw [heq, hfree] at hfound
              cases hfound
            rw [if_neg hne, hfound]
        · rw [Table.lookup_put] at hg ⊢
          split at hg
          · obtain rfl := Option.some.inj hg
            rw [if_pos rfl]
          · have hfound := hm.byName hg
            have hne : g.name ≠ f.name := by
              intro heq
              rw [heq, hname] at hfound
              cases hfound
            rw [if_neg hne, hfound]

/-! ## One call -/

/-- The file of the key, or a new file of it, unless its name is taken. -/
theorem addFile_managed_iff (hm : m.Coherent) : ((m.addFile (fun _ => stored) e).2.Coherent ∧
      ∀ f, (m.addFile (fun _ => stored) e).1 = .ok f → f.key = e.key) ↔
    Apart md5Hash pieceSize m (.addFile e stored) := by
  unfold addFile Apart
  -- The branches of `addFile`: the key is known, the file cannot be opened or made, the name is free or taken.
  cases hkey : m.filesByKey.lookup e.key with
  | some f' =>
      refine iff_of_true ⟨hm, fun f hf => ?_⟩ (.inl (Option.isSome_iff_exists.2 ⟨f', hkey⟩))
      obtain rfl := Except.ok.inj hf
      exact hm.key_eq hkey
  | none =>
      cases stored with
      | none => exact iff_of_true ⟨hm, nofun⟩ (.inr (.inr nofun))
      | some content =>
          dsimp only
          cases hfile : File.incomplete e.name e.length e.pieceSize e.key content with
          | error x =>
              refine iff_of_true ⟨hm, nofun⟩ (.inr (.inr ?_))
              intro content' hcontent f hf
              obtain rfl := Option.some.inj hcontent
              rw [hfile] at hf
              cases hf
          | ok newFile =>
              obtain ⟨hname, hkey'⟩ : newFile.name = e.name ∧ newFile.key = e.key := by
                obtain ⟨bm, -, rfl⟩ := File.incomplete_eq_ok hfile
                exact ⟨rfl, rfl⟩
              dsimp only
              cases hfound : m.filesByName.lookup e.name with
              | none =>
                  refine iff_of_true ⟨(coherent_insertFile_iff hm).2 (.inr (hkey'.symm ▸ hkey)), fun f hf => ?_⟩
                    (.inr (.inl rfl))
                  rw [insertFile_of_none (hname.symm ▸ hfound)] at hf
                  obtain rfl := Except.ok.inj hf
                  exact hkey'
              | some g =>
                  -- The file of that name has another key, or it would have been found by it.
                  refine iff_of_false ?_ ?_
                  · rintro ⟨-, hown⟩
                    have hg : g.key = e.key := by
                      refine hown g ?_
                      rw [insertFile_of_some (hname.symm ▸ hfound)]
                    have hknown := hm.byKey hfound
                    rw [hg, hkey] at hknown
                    cases hknown
                  · rintro (hsome | hnone | hthrows)
                    · rw [hkey] at hsome
                      cases hsome
                    · cases hnone
                    · exact hthrows content rfl newFile hfile

theorem addCompleteFile_coherent_iff (hm : m.Coherent) (name : CString) :
    (m.addCompleteFile md5Hash pieceSize name stored).2.Coherent ↔
      Apart md5Hash pieceSize m (.addCompleteFile name stored) := by
  unfold addCompleteFile Apart
  cases stored with
  | none => exact iff_of_true hm (.inr nofun)
  | some content =>
      dsimp only
      cases hfile : File.seed md5Hash name pieceSize content with
      | error x =>
          refine iff_of_true hm (.inr ?_)
          intro content' hcontent f hf
          obtain rfl := Option.some.inj hcontent
          rw [hfile] at hf
          cases hf
      | ok newFile =>
          obtain ⟨hname, hkey⟩ : newFile.name = name ∧ newFile.key = md5Hash content := by
            obtain ⟨bm, -, rfl⟩ := File.seed_eq_ok hfile
            exact ⟨rfl, rfl⟩
          dsimp only
          rw [coherent_insertFile_iff hm, hname, hkey]
          refine or_congr_right ⟨fun hnone content' hcontent f _ => ?_, fun hall => hall content rfl newFile hfile⟩
          obtain rfl := Option.some.inj hcontent
          exact hnone

theorem loadIncompleteFile_coherent_iff (hm : m.Coherent) (f : Option File) :
    (m.loadIncompleteFile f).Coherent ↔ Apart md5Hash pieceSize m (.loadIncompleteFile f) := by
  cases f with
  | none => exact iff_of_true hm nofun
  | some f =>
      refine (coherent_insertFile_iff hm).trans ⟨fun hor f' hf' => ?_, fun hall => hall f rfl⟩
      obtain rfl := Option.some.inj hf'
      exact hor

/-! ## Runs -/

/-- The tables stay coherent exactly as long as no file comes whose name or key only is taken. -/
theorem managed_iff (hrun : Run (Step md5Hash pieceSize) ⟨[], []⟩ h m) :
    Along Managed h m ↔ StepsMeet (fun _ m c => Apart md5Hash pieceSize m c) h := by
  refine Run.along_iff_stepsMeet ⟨coherent_empty, nofun⟩ ?_ hrun
  rintro h m c m' - ⟨hm, -⟩ rfl
  -- One equivalence for each way in.
  cases c with
  | addFile e stored =>
      rw [← addFile_managed_iff hm]
      refine ⟨fun hmanaged => ⟨hmanaged.coherent, hmanaged.own m e stored rfl⟩, fun hboth => ⟨hboth.1, ?_⟩⟩
      rintro m₀ e' stored' heq
      obtain ⟨rfl, hcall⟩ := Prod.mk.inj (Option.some.inj heq)
      obtain ⟨rfl, rfl⟩ := Call.addFile.inj hcall
      exact hboth.2
  | addCompleteFile name stored =>
      rw [← addCompleteFile_coherent_iff hm]
      exact ⟨fun hmanaged => hmanaged.coherent, fun hm' => ⟨hm', nofun⟩⟩
  | loadIncompleteFile f =>
      rw [← loadIncompleteFile_coherent_iff hm]
      exact ⟨fun hmanaged => hmanaged.coherent, fun hm' => ⟨hm', nofun⟩⟩

/-- A file with one byte, the same under any name. -/
def copyNamed (name : CString) : File :=
  { name := name
    key := "h".toList
    length := 1
    seeded := true
    pieceSize := 2
    bufferMap := ⟨⟨[0xFF]⟩⟩
    content := [7] }

theorem managed_two_files : ∃ h m, Run (Step (fun _ => "h".toList) 2) ⟨[], []⟩ h m ∧ h.length = 2 ∧
    Along Managed h m := by
  have hstart : Run (Step (fun _ => "h".toList) 2) ⟨[], []⟩ [] ⟨[], []⟩ := .start
  have hrun := (hstart.next (e := .addCompleteFile "a".toList (some [7])) rfl).next
    (e := .addFile ⟨"b".toList, 5, 2, "k".toList⟩ (some [])) rfl
  refine ⟨_, _, hrun, rfl, (managed_iff hrun).2 ⟨.inr (.inl (by decide)), .inr ?_, trivial⟩⟩
  intro content _ f _
  rfl

/-- One content under two names: the second file takes the key of the first one. -/
theorem copy_takes_key : ∃ h m, Run (Step (fun _ => "h".toList) 2) ⟨[], []⟩ h m ∧
    m.filesByName.lookup "a".toList = some (copyNamed "a".toList) ∧
    m.filesByKey.lookup "h".toList = some (copyNamed "b".toList) ∧ ¬ Along Managed h m := by
  have hstart : Run (Step (fun _ => "h".toList) 2) ⟨[], []⟩ [] ⟨[], []⟩ := .start
  have hrun := (hstart.next (e := .addCompleteFile "a".toList (some [7])) rfl).next
    (e := .addCompleteFile "b".toList (some [7])) rfl
  have hname : (perform (fun _ => "h".toList) 2 (perform (fun _ => "h".toList) 2 ⟨[], []⟩
      (.addCompleteFile "a".toList (some [7]))) (.addCompleteFile "b".toList (some [7]))).filesByName.lookup
        "a".toList = some (copyNamed "a".toList) := by decide
  have hkey : (perform (fun _ => "h".toList) 2 (perform (fun _ => "h".toList) 2 ⟨[], []⟩
      (.addCompleteFile "a".toList (some [7]))) (.addCompleteFile "b".toList (some [7]))).filesByKey.lookup
        "h".toList = some (copyNamed "b".toList) := by decide
  refine ⟨_, _, hrun, hname, hkey, fun hmanaged => ?_⟩
  -- The first file is still found by its name, and the second one by its key.
  have hfound := hmanaged.last.coherent.byKey hname
  rw [show (copyNamed "a".toList).key = "h".toList from rfl, hkey] at hfound
  exact absurd (congrArg File.name (Option.some.inj hfound)) (by decide)

end FileTables

end JavaClient
end Raiezau
