import Mathlib.Data.List.Sort
import Raiezau.CTracker.State

/-!
# State — files and peers of the C++ tracker

The objects of `File.cpp`, `FileMap.cpp`, `FileMgr.cpp` and the data of a `Peer`, over explicit heaps: a
`File *` or a `Peer *` is an address.  Registered files are never deleted; a peer is, and whatever still
points at it dangles.  A function that dereferences such a pointer faults, and its model returns `none`.
-/

namespace Raiezau
namespace CppTracker

open Memory CUtil Assoc

/-! ## Containers -/

/-- A `std::set` of pointers, in the order of the pointers. -/
abbrev PtrSet := List Addr

def PtrSet.insert (s : PtrSet) (a : Addr) : PtrSet :=
  if a ∈ s then s else s.orderedInsert (· ≤ ·) a

@[simp] theorem PtrSet.mem_insert {s : PtrSet} {a b : Addr} : b ∈ s.insert a ↔ b = a ∨ b ∈ s := by
  unfold PtrSet.insert
  split
  · next ha =>
      refine ⟨.inr, ?_⟩
      rintro (rfl | hb)
      · exact ha
      · exact hb
  · exact List.mem_orderedInsert _

theorem PtrSet.nodup_insert {s : PtrSet} {a : Addr} (hs : s.Nodup) : (s.insert a).Nodup := by
  unfold PtrSet.insert
  split
  · exact hs
  · next ha => exact (List.perm_orderedInsert (· ≤ ·) a s).nodup_iff.2 (List.nodup_cons.2 ⟨ha, hs⟩)

/-- `FileMap`: the files under their hashes. -/
abbrev FileMap := Table CString Addr

def FileMap.get (m : FileMap) (hash : CString) : Option Addr := m.lookup hash

/-- `FileMap::insert` does nothing when the hash is present. -/
def FileMap.insert (m : FileMap) (hash : CString) (f : Addr) : FileMap := m.insertNew hash f

/-- The map holds the file. -/
def FileMap.Holds (m : FileMap) (f : Addr) : Prop := ∃ k, m.get k = some f

/-! ## Data -/

structure File where
  fileName : CString
  fileSize : Nat
  pieceSize : Nat
  hash : CString
  peers : PtrSet
  deriving DecidableEq, Repr

/-- `File::operator==`, which compares the size twice and not the name. -/
def File.equals (f g : File) : Bool :=
  f.fileSize = g.fileSize && f.fileSize = g.fileSize && f.pieceSize = g.pieceSize && f.hash = g.hash

def File.toString (f : File) : CString :=
  f.fileName ++ ' ' :: (decimal f.fileSize ++ ' ' :: (decimal f.pieceSize ++ ' ' :: f.hash))

structure Peer where
  remoteIP : CTracker.InAddr
  listeningPort : Nat
  announced : Bool
  leech : FileMap
  seed : FileMap
  seqErrorCount : Nat
  deriving DecidableEq, Repr

def Peer.toString (p : Peer) : CString :=
  CTracker.ipStringify p.remoteIP ++ ':' :: decimal p.listeningPort

/-- The files of a peer's two maps. -/
def Peer.Records (p : Peer) (f : Addr) : Prop := p.seed.Holds f ∨ p.leech.Holds f

/-- `fileMap` and `fileSet` are the two parts of `FileMgr`. -/
structure Tracker where
  fileHeap : Heap File
  fileMap : FileMap
  fileSet : PtrSet
  peerHeap : Heap Peer
  deriving DecidableEq, Repr

def Tracker.init : Tracker :=
  { fileHeap := Heap.empty
    fileMap := []
    fileSet := []
    peerHeap := Heap.empty }

namespace Tracker

def file (st : Tracker) (f : Addr) : Option File := st.fileHeap.read f

def peer (st : Tracker) (p : Addr) : Option Peer := st.peerHeap.read p

def modifyFile (st : Tracker) (f : Addr) (g : File → File) : Tracker :=
  { st with fileHeap := st.fileHeap.modify f g }

def modifyPeer (st : Tracker) (p : Addr) (g : Peer → Peer) : Tracker :=
  { st with peerHeap := st.peerHeap.modify p g }

end Tracker

/-! ## `FileMgr` -/

/-- `new File` and `FileMgr::insert`: the set takes every file, the map one for each hash. -/
def registerFile (st : Tracker) (x : File) : Tracker × Addr :=
  let f := st.fileHeap.fresh
  ({ st with
      fileHeap := st.fileHeap.alloc x
      fileSet := st.fileSet.insert f
      fileMap := st.fileMap.insert x.hash f }, f)

/-- `FileMgr::getFile`; the object it builds for the comparison is deleted when it is not kept. -/
def getFile (st : Tracker) (fileName : CString) (fileSize pieceSize : Nat) (hash : CString) :
    Option (Tracker × Addr) :=
  let x : File :=
    { fileName := fileName, fileSize := fileSize, pieceSize := pieceSize, hash := hash, peers := [] }
  match st.fileMap.get hash with
  | none => some (registerFile st x)
  | some g => do
      let y ← st.file g
      if y.equals x then pure (st, g) else pure (registerFile st x)

/-- `f->addPeer(p)`. -/
def addPeer (st : Tracker) (p : Addr) (f : Addr) : Option Tracker := do
  let _ ← st.file f
  pure (st.modifyFile f fun x => { x with peers := x.peers.insert p })

end CppTracker
end Raiezau
