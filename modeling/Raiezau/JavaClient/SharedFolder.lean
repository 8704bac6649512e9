import Raiezau.JavaClient.FileTables
import Raiezau.JavaClient.Geometry

/-!
# SharedFolder — loading the shared directory

The walk goes into the folders, but `loadCompleteFile` passes on only the last name of what it finds, and the file that
is opened, hashed and registered is the one of that name in the root, where one is made if there is none.
-/

namespace Raiezau
namespace JavaClient

open CUtil Assoc Bytes

/-! ## Model -/

/-- What `listFiles` gives: an entry, and the rest. -/
inductive Folder
  | empty
  | file (name : CString) (content : List UInt8) (rest : Folder)
  | folder (name : CString) (entries rest : Folder)
  deriving DecidableEq, Repr

/-- A file of the tree, with the names of the folders it is in below the root. -/
structure TreeFile where
  path : List CString
  name : CString
  content : List UInt8
  deriving DecidableEq, Repr

namespace Folder

/-- The files of the tree, in the order of the walk. -/
def files (path : List CString) : Folder → List TreeFile
  | empty => []
  | file name content rest => ⟨path, name, content⟩ :: rest.files path
  | folder name entries rest => entries.files (path ++ [name]) ++ rest.files path

def names : Folder → List CString
  | empty => []
  | file name _ rest => name :: rest.names
  | folder name _ rest => name :: rest.names

/-- What is stored under a name, if there is something: a file has a content, a folder has none. -/
def entry (name : CString) : Folder → Option (Option (List UInt8))
  | empty => none
  | file n content rest => if n = name then some (some content) else rest.entry name
  | folder n _ rest => if n = name then some none else rest.entry name

/-- A new file without content. -/
def create (name : CString) : Folder → Folder
  | empty => file name [] empty
  | file n content rest => file n content (rest.create name)
  | folder n entries rest => folder n entries (rest.create name)

/-- `new RandomAccessFile(.., "rw")`, and what is read from it then.  A folder cannot be opened. -/
def openRw (root : Folder) (name : CString) : Option (List UInt8) × Folder :=
  match root.entry name with
  | some stored => (stored, root)
  | none => (some [], root.create name)

end Folder

/-- `loadFileFromDirectory`: the job is called with what `getName` gives. -/
def loadFileFromDirectory {σ : Type} (fileJob : σ → CString → σ) : Folder → σ → σ
  | .empty, s => s
  | .file name _ rest, s => loadFileFromDirectory fileJob rest (fileJob s name)
  | .folder _ entries rest, s =>
      loadFileFromDirectory fileJob rest (loadFileFromDirectory fileJob entries s)

/-- The root directory, and the tables of the manager. -/
structure Loading where
  root : Folder
  tables : FileTables
  deriving DecidableEq

section Config

variable (md5Hash : List UInt8 → CString) (pieceSize : Int)

/-- `loadCompleteFile`.  The walk logs what it throws. -/
def loadCompleteFile (s : Loading) (name : CString) : Loading :=
  let r := s.root.openRw name
  { root := r.2
    tables := (s.tables.addCompleteFile md5Hash pieceSize name r.1).2 }

def loadCompleteFileFromDirectory (root : Folder) : Loading :=
  loadFileFromDirectory (loadCompleteFile md5Hash pieceSize) root ⟨root, [], []⟩

end Config

/-- No other file of the tree has the content of this one. -/
def Unshared (root : Folder) (x : TreeFile) : Prop := ∀ y ∈ root.files [], y.content = x.content → y = x

/-- The tree is as it was, and each file of a content of its own is registered under its hash and can be read. -/
structure LoadsTree (md5Hash : List UInt8 → CString) (p : Nat) (root : Folder) : Prop where
  untouched : (loadCompleteFileFromDirectory md5Hash p root).root = root
  registered : ∀ x ∈ root.files [], Unshared root x →
    ∃ f, (loadCompleteFileFromDirectory md5Hash p root).tables.filesByKey.lookup (md5Hash x.content) = some f ∧
      ∀ i < x.content.length ⌈/⌉ p, f.readPiece i = .ok (readAt 0 x.content (p * i) p)

/-- Every name in the tree is also one in the root, and the files of a content of their own are in the root themselves
and not too long. -/
structure Flat (p : Nat) (root : Folder) : Prop where
  present : ∀ x ∈ root.files [], (root.entry x.name).isSome
  top : ∀ x ∈ root.files [], Unshared root x →
    x.path = [] ∧ x.content.length + p ≤ 2 ^ 31 ∧ x.content.length ⌈/⌉ p + 7 < 2 ^ 31

variable {md5Hash : List UInt8 → CString} {p : Nat} {root : Folder} {s : Loading} {name : CString} {x : TreeFile}
  {path : List CString} {content : List UInt8} {f : File}

/-! ## Trees -/

theorem loadFileFromDirectory_eq {σ : Type} (fileJob : σ → CString → σ) (path : List CString) (root : Folder) (s : σ) :
    loadFileFromDirectory fileJob root s = (root.files path).foldl (fun s x => fileJob s x.name) s := by
  induction root generalizing path s with
  | empty => rfl
  | file name content rest ih => exact ih path _
  | folder name entries rest ihEntries ihRest =>
      rw [loadFileFromDirectory, Folder.files, List.foldl_append, ← ihEntries, ← ihRest]

namespace Folder

theorem names_create (name : CString) (root : Folder) : (root.create name).names = root.names ++ [name] := by
  induction root with
  | empty => rfl
  | file n content rest ih => exact congrArg (n :: ·) ih
  | folder n entries rest _ ih => exact congrArg (n :: ·) ih

theorem mem_files_of_entry (h : root.entry name = some (some content)) : ⟨path, name, content⟩ ∈ root.files path := by
  induction root with
  | empty => cases h
  | file n c rest ih =>
      unfold entry at h
      split at h
      · next hn =>
          obtain rfl := hn
          obtain rfl := Option.some.inj (Option.some.inj h)
          exact List.mem_cons_self
      · exact List.mem_cons_of_mem _ (ih h)
  | folder n entries rest _ ih =>
      unfold entry at h
      split at h
      · cases h
      · exact List.mem_append_right _ (ih h)

theorem prefix_of_mem_files (h : x ∈ root.files path) : path <+: x.path := by
  induction root generalizing path with
  | empty => cases h
  | file n c rest ih =>
      rcases List.mem_cons.1 h with rfl | hrest
      · exact List.prefix_refl _
      · exact ih hrest
  | folder n entries rest ihEntries ihRest =>
      rcases List.mem_append.1 h with hin | hrest
      · exact (List.prefix_append path [n]).trans (ihEntries hin)
      · exact ihRest hrest

/-- A file of the root itself is what its name stands for. -/
theorem entry_of_mem_files (hnames : root.names.Nodup) (h : x ∈ root.files path) (hpath : x.path = path) :
    root.entry x.name = some (some x.content) := by
  have hmem : ∀ {root : Folder}, x ∈ root.files path → x.name ∈ root.names := by
    intro root h
    -- The file has the path of the root, so it is in no folder, and its name is its own.
    induction root with
    | empty => cases h
    | file n c rest ih =>
        rcases List.mem_cons.1 h with rfl | hrest
        · exact List.mem_cons_self
        · exact List.mem_cons_of_mem _ (ih hrest)
    | folder n entries rest _ ih =>
        rcases List.mem_append.1 h with hin | hrest
        · have hlen := (prefix_of_mem_files hin).length_le
          rw [hpath, List.length_append] at hlen
          exact absurd hlen (by simp)
        · exact List.mem_cons_of_mem _ (ih hrest)
  induction root with
  | empty => cases h
  | file n c rest ih =>
      obtain ⟨hout, hrest⟩ := List.nodup_cons.1 hnames
      rcases List.mem_cons.1 h with rfl | hin
      · exact if_pos rfl
      · have hne : n ≠ x.name := fun heq => hout (heq ▸ hmem hin)
        rw [entry, if_neg hne]
        exact ih hrest hin
  | folder n entries rest _ ih =>
      obtain ⟨hout, hrest⟩ := List.nodup_cons.1 hnames
      rcases List.mem_append.1 h with hin | hin
      · have hlen := (prefix_of_mem_files hin).length_le
        rw [hpath, List.length_append] at hlen
        exact absurd hlen (by simp)
      · have hne : n ≠ x.name := fun heq => hout (heq ▸ hmem hin)
        rw [entry, if_neg hne]
        exact ih hrest hin

end Folder

/-! ## The root -/

theorem root_loadCompleteFile_of_some {stored : Option (List UInt8)} (h : s.root.entry name = some stored) :
    loadCompleteFile md5Hash p s name = { s with tables := (s.tables.addCompleteFile md5Hash p name stored).2 } := by
  rw [loadCompleteFile, Folder.openRw, h]

theorem root_loadCompleteFile_of_none (h : s.root.entry name = none) :
    (loadCompleteFile md5Hash p s name).root = s.root.create name := by
  rw [loadCompleteFile, Folder.openRw, h]

/-- Entries are made, and none is taken away. -/
theorem length_names_le (md5Hash : List UInt8 → CString) (p : Nat) (xs : List TreeFile) (s : Loading) : s.root.names.length ≤
    (xs.foldl (fun s x => loadCompleteFile md5Hash p s x.name) s).root.names.length := by
  -- Each file either finds its name or makes one.
  induction xs generalizing s with
  | nil => exact Nat.le_refl _
  | cons x xs ih =>
      refine Nat.le_trans ?_ (ih _)
      dsimp only
      cases hentry : s.root.entry x.name with
      | some stored => rw [root_loadCompleteFile_of_some hentry]
      | none =>
          rw [root_loadCompleteFile_of_none hentry, Folder.names_create, List.length_append]
          exact Nat.le_add_right _ _

theorem root_foldl_eq_iff (xs : List TreeFile) (s : Loading) :
    (xs.foldl (fun s x => loadCompleteFile md5Hash p s x.name) s).root = s.root ↔
      ∀ x ∈ xs, (s.root.entry x.name).isSome := by
  induction xs generalizing s with
  | nil => exact iff_of_true rfl nofun
  | cons x xs ih =>
      rw [List.forall_mem_cons, List.foldl_cons]
      cases hentry : s.root.entry x.name with
      | some stored =>
          have hsame : loadCompleteFile md5Hash p s x.name = _ := root_loadCompleteFile_of_some hentry
          have hrest := ih (loadCompleteFile md5Hash p s x.name)
          rw [hsame] at hrest ⊢
          exact hrest.trans (and_iff_right Option.isSome_some).symm
      | none =>
          -- The entry that is made cannot be taken back by the rest of the walk.
          refine iff_of_false (fun heq => ?_) fun h => nomatch h.1
          have hle := length_names_le md5Hash p xs (loadCompleteFile md5Hash p s x.name)
          rw [heq, root_loadCompleteFile_of_none hentry, Folder.names_create, List.length_append] at hle
          exact absurd hle (by simp)

/-! ## The tables -/

/-- The file is made of what is stored under its name. -/
def MadeFrom (md5Hash : List UInt8 → CString) (p : Nat) (root : Folder) (f : File) : Prop :=
  ∃ content, root.entry f.name = some (some content) ∧ File.seed md5Hash f.name p content = .ok f

/-- The files are under their keys and names, and none is under its name only. -/
structure TablesOf (md5Hash : List UInt8 → CString) (p : Nat) (root : Folder) (m : FileTables) : Prop where
  keyed : ∀ {k f}, m.filesByKey.lookup k = some f → f.key = k ∧ MadeFrom md5Hash p root f
  named : ∀ {name f}, m.filesByName.lookup name = some f →
    f.name = name ∧ MadeFrom md5Hash p root f ∧ (m.filesByKey.lookup f.key).isSome

theorem MadeFrom.key_eq (h : MadeFrom md5Hash p root f) (hentry : root.entry f.name = some (some content)) :
    f.key = md5Hash content := by
  obtain ⟨content', hentry', hseed⟩ := h
  obtain rfl := Option.some.inj (Option.some.inj (hentry.symm.trans hentry'))
  obtain ⟨bm, -, hf⟩ := File.seed_eq_ok hseed
  exact congrArg File.key hf

theorem addCompleteFile_cases (md5Hash : List UInt8 → CString) (p : Nat) (m : FileTables) (name : CString)
    (stored : Option (List UInt8)) :
    ((m.addCompleteFile md5Hash p name stored).2 = m ∧
        ((m.filesByName.lookup name).isSome ∨ ∀ content ∈ stored, ∀ f, File.seed md5Hash name p content ≠ .ok f)) ∨
      ∃ content f, stored = some content ∧ File.seed md5Hash name p content = .ok f ∧ f.name = name ∧
        (m.addCompleteFile md5Hash p name stored).2 =
          { filesByKey := m.filesByKey.put f.key f
            filesByName := m.filesByName.put name f } := by
  cases stored with
  | none => exact .inl ⟨rfl, .inr nofun⟩
  | some content =>
      unfold FileTables.addCompleteFile
      dsimp only
      cases hseed : File.seed md5Hash name p content with
      | error e =>
          refine .inl ⟨rfl, .inr fun content' hcontent f hf => ?_⟩
          obtain rfl := Option.some.inj hcontent
          rw [hseed] at hf
          cases hf
      | ok f =>
          have hname : f.name = name := by
            obtain ⟨bm, -, rfl⟩ := File.seed_eq_ok hseed
            rfl
          dsimp only
          cases hfound : m.filesByName.lookup name with
          | some g =>
              rw [FileTables.insertFile_of_some (hname.symm ▸ hfound)]
              exact .inl ⟨rfl, .inl Option.isSome_some⟩
          | none =>
              rw [FileTables.insertFile_of_none (hname.symm ▸ hfound), hname]
              exact .inr ⟨content, f, rfl, hseed, hname, rfl⟩

theorem TablesOf.addCompleteFile {m : FileTables} (hm : TablesOf md5Hash p root m) {stored : Option (List UInt8)}
    (hentry : root.entry name = some stored) : TablesOf md5Hash p root (m.addCompleteFile md5Hash p name stored).2 := by
  rcases addCompleteFile_cases md5Hash p m name stored with ⟨heq, -⟩ | ⟨content, f, rfl, hseed, rfl, heq⟩
  · rw [heq]
    exact hm
  · have hmade : MadeFrom md5Hash p root f := ⟨content, hentry, hseed⟩
    rw [heq]
    refine ⟨fun {k g} hg => ?_, fun {name g} hg => ?_⟩
    · rw [Table.lookup_put] at hg
      split at hg
      · next hk =>
          obtain rfl := Option.some.inj hg
          exact ⟨hk.symm, hmade⟩
      · exact hm.keyed hg
    · have hkey : ∀ k, (m.filesByKey.lookup k).isSome ∨ k = f.key → ((m.filesByKey.put f.key f).lookup k).isSome := by
        intro k hk
        rw [Table.lookup_put]
        split
        · exact Option.isSome_some
        · next hne => exact hk.resolve_right hne
      rw [Table.lookup_put] at hg
      split at hg
      · next hn =>
          obtain rfl := Option.some.inj hg
          exact ⟨hn.symm, hmade, hkey _ (.inr rfl)⟩
      · obtain ⟨hname, hmade', hsome⟩ := hm.named hg
        exact ⟨hname, hmade', hkey _ (.inl hsome)⟩

/-- A name is in the table once it has been loaded, and stays. -/
theorem isSome_addCompleteFile {m : FileTables} {stored : Option (List UInt8)} {n : CString}
    (h : (m.filesByName.lookup n).isSome ∨ n = name ∧ ∃ content ∈ stored, ∃ f, File.seed md5Hash name p content = .ok f) :
    ((m.addCompleteFile md5Hash p name stored).2.filesByName.lookup n).isSome := by
  rcases addCompleteFile_cases md5Hash p m name stored with ⟨heq, hwhy⟩ | ⟨content, f, rfl, hseed, hname, heq⟩
  · rw [heq]
    rcases h with hold | ⟨rfl, content, hcontent, f, hf⟩
    · exact hold
    · exact hwhy.resolve_right fun hnone => hnone content hcontent f hf
  · rw [heq, Table.lookup_put]
    split
    · exact Option.isSome_some
    · next hne => exact h.resolve_right fun hnew => hne hnew.1

/-- What the walk over a tree whose names are all in the root leaves in the tables. -/
theorem tables_foldl (xs : List TreeFile) (hpresent : ∀ x ∈ xs, (s.root.entry x.name).isSome)
    (hs : TablesOf md5Hash p s.root s.tables) :
    TablesOf md5Hash p s.root (xs.foldl (fun s x => loadCompleteFile md5Hash p s x.name) s).tables ∧
      ∀ n, ((s.tables.filesByName.lookup n).isSome ∨ ∃ x ∈ xs, x.name = n ∧
          ∃ content f, s.root.entry n = some (some content) ∧ File.seed md5Hash n p content = .ok f) →
        ((xs.foldl (fun s x => loadCompleteFile md5Hash p s x.name) s).tables.filesByName.lookup n).isSome := by
  -- The root stays as it is, so what a name stands for does not change on the way.
  induction xs generalizing s with
  | nil =>
      refine ⟨hs, fun n hn => hn.resolve_right ?_⟩
      rintro ⟨x, hx, -⟩
      cases hx
  | cons x xs ih =>
      obtain ⟨hx, hxs⟩ := List.forall_mem_cons.1 hpresent
      obtain ⟨stored, hentry⟩ := Option.isSome_iff_exists.1 hx
      obtain ⟨hkept, hnames⟩ := ih (s := { s with tables := (s.tables.addCompleteFile md5Hash p x.name stored).2 })
        hxs (hs.addCompleteFile hentry)
      rw [List.foldl_cons, root_loadCompleteFile_of_some hentry]
      refine ⟨hkept, fun n hn => hnames n ?_⟩
      rcases hn with hold | ⟨y, hy, rfl, content, f, hcontent, hseed⟩
      · exact .inl (isSome_addCompleteFile (.inl hold))
      · rcases List.mem_cons.1 hy with rfl | hrest
        · obtain rfl := Option.some.inj (hentry.symm.trans hcontent)
          exact .inl (isSome_addCompleteFile (.inr ⟨rfl, content, rfl, f, hseed⟩))
        · exact .inr ⟨y, hrest, rfl, content, f, hcontent, hseed⟩

/-! ## The walk -/

theorem loadCompleteFileFromDirectory_eq (md5Hash : List UInt8 → CString) (p : Nat) (root : Folder) :
    loadCompleteFileFromDirectory md5Hash p root =
      (root.files []).foldl (fun s x => loadCompleteFile md5Hash p s x.name) ⟨root, [], []⟩ :=
  loadFileFromDirectory_eq _ [] root _

theorem tablesOf_empty : TablesOf md5Hash p root ⟨[], []⟩ := by
  constructor <;> intro _ _ hf <;> cases hf

/-- Loading keeps the tree and registers what is in it exactly if the tree is flat. -/
theorem loadsTree_iff (hinj : Function.Injective md5Hash) (hp : 0 < p) (hsize : p < 2 ^ 31)
    (hnames : root.names.Nodup) : LoadsTree md5Hash p root ↔ Flat p root := by
  have hroot : (loadCompleteFileFromDirectory md5Hash p root).root = root ↔
      ∀ x ∈ root.files [], (root.entry x.name).isSome := by
    rw [loadCompleteFileFromDirectory_eq]
    exact root_foldl_eq_iff (root.files []) ⟨root, [], []⟩
  have htables : (∀ x ∈ root.files [], (root.entry x.name).isSome) →
      TablesOf md5Hash p root (loadCompleteFileFromDirectory md5Hash p root).tables ∧
        ∀ x ∈ root.files [], ∀ content f, root.entry x.name = some (some content) →
          File.seed md5Hash x.name p content = .ok f →
          ((loadCompleteFileFromDirectory md5Hash p root).tables.filesByName.lookup x.name).isSome := by
    intro hpresent
    rw [loadCompleteFileFromDirectory_eq]
    obtain ⟨hkept, hloaded⟩ := tables_foldl (s := ⟨root, [], []⟩) (root.files []) hpresent tablesOf_empty
    exact ⟨hkept, fun x hx content f hentry hseed => hloaded x.name (.inr ⟨x, hx, rfl, content, f, hentry, hseed⟩)⟩
  constructor
  · intro hloads
    have hpresent := hroot.1 hloads.untouched
    refine ⟨hpresent, fun x hx hunshared => ?_⟩
    obtain ⟨f, hfound, hread⟩ := hloads.registered x hx hunshared
    obtain ⟨hkey, content, hentry, hseed⟩ := (htables hpresent).1.keyed hfound
    -- The file of that hash is one in the root, with that content.
    have hcontent : content = x.content := by
      -- The new file may take the key of another one, which stays under its name.
      have hmade : MadeFrom md5Hash p root f := ⟨content, hentry, hseed⟩
      exact hinj ((hmade.key_eq hentry).symm.trans hkey)
    subst hcontent
    have hsame := hunshared ⟨[], f.name, x.content⟩ (Folder.mem_files_of_entry hentry) rfl
    -- All of its pieces can be read, so it is not too long.
    have hfits : x.content.length + p ≤ 2 ^ 31 :=
      le_of_readable hp hsize hseed fun i hi => ⟨_, hread i hi⟩
    exact ⟨(congrArg TreeFile.path hsame).symm, hfits, places_of_seed hp hsize hfits hseed⟩
  · rintro ⟨hpresent, htop⟩
    refine ⟨hroot.2 hpresent, fun x hx hunshared => ?_⟩
    obtain ⟨hpath, hfits, hplaces⟩ := htop x hx hunshared
    obtain ⟨hkept, hloaded⟩ := htables hpresent
    have hentry := Folder.entry_of_mem_files hnames hx hpath
    obtain ⟨f, hseed, -⟩ := @exists_readable p md5Hash x.name _ hp hsize hfits hplaces
    obtain ⟨g, hg⟩ := Option.isSome_iff_exists.1 (hloaded x hx x.content f hentry hseed)
    obtain ⟨hname, hmade, hsome⟩ := hkept.named hg
    rw [hmade.key_eq (hname.symm ▸ hentry)] at hsome
    -- What is found under the hash has that content, whatever its name.
    obtain ⟨g', hg'⟩ := Option.isSome_iff_exists.1 hsome
    obtain ⟨hkey, content, hentry', hseed'⟩ := hkept.keyed hg'
    have hmade' : MadeFrom md5Hash p root g' := ⟨content, hentry', hseed'⟩
    obtain rfl : content = x.content := hinj ((hmade'.key_eq hentry').symm.trans hkey)
    obtain ⟨f', hseed'', hread⟩ := @exists_readable p md5Hash g'.name _ hp hsize hfits hplaces
    obtain rfl : g' = f' := Except.ok.inj (hseed'.symm.trans hseed'')
    exact ⟨g', hg', hread⟩

/-- A hash that loses nothing. -/
def exactHash (content : List UInt8) : CString := content.map fun b => Char.ofNat b.toNat

theorem exactHash_injective : Function.Injective exactHash := by
  have hbyte : Function.LeftInverse (fun c : Char => UInt8.ofNat c.toNat) fun b : UInt8 => Char.ofNat b.toNat := by
    intro b
    have hvalid : b.toNat.isValidChar := .inl (Nat.lt_trans b.toNat_lt (by decide))
    have hchar : (Char.ofNat b.toNat).toNat = b.toNat := by
      rw [Char.ofNat, dif_pos hvalid]
      rfl
    change UInt8.ofNat (Char.ofNat b.toNat).toNat = b
    rw [hchar, UInt8.ofNat_toNat]
  exact List.map_injective_iff.2 hbyte.injective

/-- A file in the root, and a folder with a copy of it. -/
def flatTree : Folder :=
  .file "a".toList [1, 2, 3] (.folder "d".toList (.file "a".toList [1, 2, 3] .empty) (.file "b".toList [4] .empty))

theorem loadsTree_flatTree : LoadsTree exactHash 2 flatTree := by
  refine (loadsTree_iff exactHash_injective (by decide) (by decide) (by decide)).2 ⟨by decide, ?_⟩
  unfold Unshared
  decide

/-- A file in a folder: an empty one of its name is made in the root, and registered in its place. -/
theorem nested_file_lost : Function.Injective exactHash ∧
    ¬ LoadsTree exactHash 2 (.folder "d".toList (.file "a".toList [1] .empty) .empty) := by
  refine ⟨exactHash_injective, fun hloads => ?_⟩
  have hroot := hloads.untouched
  revert hroot
  decide

end JavaClient
end Raiezau
