import Raiezau.Bytes.RandomAccess
import Raiezau.JavaClient.BitSet

/-!
# File — the shared files of the Java client

`BufferMap` and `File`, with the bytes of the random-access file as a field.  A read fills as many bytes
as the file has, a write past the end extends the file with zeros.  Positions are `int` products.
-/

namespace Raiezau
namespace JavaClient

open CUtil Bytes

/-! ## Model -/

structure BufferMap where
  bitSet : BitSet
  deriving DecidableEq, Repr

namespace BufferMap

def addCompletedPart (bm : BufferMap) (partNumber : Int) : Except JavaError BufferMap :=
  (bm.bitSet.set partNumber).map BufferMap.mk

/-- The map after `addCompletedPart`, which leaves it as it is when it throws. -/
def completed (bm : BufferMap) (partNumber : Int) : BufferMap :=
  match bm.addCompletedPart partNumber with
  | .ok bm' => bm'
  | .error _ => bm

def isCompleted (bm : BufferMap) (partNumber : Int) : Except JavaError Bool :=
  bm.bitSet.test partNumber

def size (bm : BufferMap) : Nat := bm.bitSet.size

def toByteArray (bm : BufferMap) : List UInt8 := bm.bitSet.toByteArray

def fromByteArray (array : List UInt8) : BufferMap := ⟨BitSet.fromByteArray array⟩

end BufferMap

/-- `(int) (length + (pieceSize - 1)) / pieceSize`: the cast applies to the sum. -/
def pieceCountOf (length pieceSize : Int) : Except JavaError Int :=
  if pieceSize = 0 then .error .arithmetic
  else .ok (toInt32 ((toInt32 (length + toInt32 (pieceSize - 1))).tdiv pieceSize))

/-- `BufferMap(File)`. -/
def BufferMap.ofFile (length pieceSize : Int) (seeded : Bool) : Except JavaError BufferMap := do
  let size ← pieceCountOf length pieceSize
  let bitSet ← BitSet.new size
  pure ⟨if seeded then bitSet.setAll else bitSet⟩

structure File where
  name : CString
  key : CString
  length : Int
  seeded : Bool
  pieceSize : Int
  bufferMap : BufferMap
  content : List UInt8
  deriving DecidableEq, Repr

namespace File

/-- `File(name, length, pieceSize, key)`, for uncompleted files. -/
def incomplete (name : CString) (length pieceSize : Int) (key : CString) (content : List UInt8) :
    Except JavaError File := do
  let bufferMap ← BufferMap.ofFile length pieceSize false
  pure
    { name := name
      key := key
      length := length
      seeded := false
      pieceSize := pieceSize
      bufferMap := bufferMap
      content := content }

/-- `File(name)`, for seeded files: the key and the length are those of the file on disk. -/
def seed (md5Hash : List UInt8 → CString) (name : CString) (pieceSize : Int) (content : List UInt8) :
    Except JavaError File := do
  let bufferMap ← BufferMap.ofFile content.length pieceSize true
  pure
    { name := name
      key := md5Hash content
      length := content.length
      seeded := true
      pieceSize := pieceSize
      bufferMap := bufferMap
      content := content }

theorem incomplete_eq_ok {name key : CString} {length pieceSize : Int} {content : List UInt8} {f : File}
    (h : incomplete name length pieceSize key content = .ok f) :
    ∃ bm, BufferMap.ofFile length pieceSize false = .ok bm ∧ f =
      { name := name
        key := key
        length := length
        seeded := false
        pieceSize := pieceSize
        bufferMap := bm
        content := content } := by
  unfold incomplete at h
  cases hmap : BufferMap.ofFile length pieceSize false with
  | error e =>
      rw [hmap] at h
      cases h
  | ok bm =>
      rw [hmap] at h
      exact ⟨bm, rfl, (Except.ok.inj h).symm⟩

theorem seed_eq_ok {md5Hash : List UInt8 → CString} {name : CString} {pieceSize : Int} {content : List UInt8} {f : File}
    (h : seed md5Hash name pieceSize content = .ok f) :
    ∃ bm, BufferMap.ofFile content.length pieceSize true = .ok bm ∧ f =
      { name := name
        key := md5Hash content
        length := content.length
        seeded := true
        pieceSize := pieceSize
        bufferMap := bm
        content := content } := by
  unfold seed at h
  cases hmap : BufferMap.ofFile content.length pieceSize true with
  | error e =>
      rw [hmap] at h
      cases h
  | ok bm =>
      rw [hmap] at h
      exact ⟨bm, rfl, (Except.ok.inj h).symm⟩

def getBufferMapSize (f : File) : Nat := f.bufferMap.size

def getPieceCount (f : File) : Except JavaError Int := pieceCountOf f.length f.pieceSize

def readPiece (f : File) (pieceIndex : Int) : Except JavaError (List UInt8) := do
  let startPos := toInt32 (f.pieceSize * pieceIndex)
  if f.pieceSize < 0 then throw .negativeArraySize
  if !(← f.bufferMap.isCompleted pieceIndex) then throw .noPart
  if startPos < 0 then throw .io
  pure (readAt 0 f.content startPos.toNat f.pieceSize.toNat)

/-- The checks of `readPiece` in turn: the array, the bit of the piece, the position. -/
theorem checked_eq {α : Type} (size pos : Int) (bit : Except JavaError Bool) (x : α) :
    (do
      if size < 0 then throw .negativeArraySize
      if !(← bit) then throw .noPart
      if pos < 0 then throw .io
      pure x : Except JavaError α) =
    if size < 0 then .error .negativeArraySize
    else match bit with
      | .error e => .error e
      | .ok false => .error .noPart
      | .ok true => if pos < 0 then .error .io else .ok x := by
  by_cases hsize : size < 0
  · rw [if_pos hsize, if_pos hsize]
    rfl
  · rw [if_neg hsize, if_neg hsize]
    cases bit with
    | error e => rfl
    | ok bit =>
        cases bit with
        | false => rfl
        | true =>
            by_cases hpos : pos < 0
            · simp only [if_pos hpos]
              rfl
            · simp only [if_neg hpos]
              rfl

/-- The file is cut to its length when the last piece is written.  What an exception leaves behind is
`writtenPiece`. -/
def writePiece (f : File) (index : Int) (data : List UInt8) : Except JavaError File := do
  let pos := toInt32 (f.pieceSize * index)
  if pos < 0 then throw .io
  let written := writeAt 0 f.content pos.toNat data
  let pieceCount ← f.getPieceCount
  let content := if index = toInt32 (pieceCount - 1) then written.take f.length.toNat else written
  let bufferMap ← f.bufferMap.addCompletedPart index
  pure { f with content := content, bufferMap := bufferMap }

/-- The file after a call of `writePiece`, however it ends: the bytes are on the disk before the map is asked
for the piece. -/
def writtenPiece (f : File) (index : Int) (data : List UInt8) : File :=
  let pos := toInt32 (f.pieceSize * index)
  if pos < 0 then f
  else
    let written := writeAt 0 f.content pos.toNat data
    match f.getPieceCount with
    | .error _ => { f with content := written }
    | .ok pieceCount =>
        { f with
          content := if index = toInt32 (pieceCount - 1) then written.take f.length.toNat else written
          bufferMap := f.bufferMap.completed index }

theorem writtenPiece_of_ok {f f' : File} {index : Int} {data : List UInt8}
    (h : f.writePiece index data = .ok f') : f.writtenPiece index data = f' := by
  unfold writePiece at h
  unfold writtenPiece
  by_cases hpos : toInt32 (f.pieceSize * index) < 0
  · rw [if_pos hpos] at h
    cases h
  · simp only [if_neg hpos] at h ⊢
    cases hcount : f.getPieceCount with
    | error e =>
        rw [hcount] at h
        cases h
    | ok pieceCount =>
        cases hmap : f.bufferMap.addCompletedPart index with
        | error e =>
            rw [hcount, hmap] at h
            cases h
        | ok bm =>
            rw [hcount, hmap] at h
            obtain rfl := Except.ok.inj h
            simp only [BufferMap.completed, hmap]

end File

/-! ## Pieces -/

/-- `n` pieces of `p` bytes cover a file of `L` bytes, the last one not in vain. -/
structure Pieces (L p n : Nat) : Prop where
  size_pos : 0 < p
  covers : L ≤ p * n
  needed : ∀ {i}, i < n → p * i < L
  fits : L + p ≤ 2 ^ 31

theorem pieces_of_count {L p : Nat} (hL : 0 < L) (hp : 0 < p) (hfit : L + p ≤ 2 ^ 31) {n : Nat}
    (hn : pieceCountOf L p = .ok (n : Int)) : Pieces L p n := by
  have hsub : toInt32 ((p : Int) - 1) = (p - 1 : Nat) := by
    have hcast : (p : Int) - 1 = (p - 1 : Nat) := by omega
    rw [hcast, toInt32_of_lt (by omega)]
  have hsum : toInt32 ((L : Int) + (p - 1 : Nat)) = (L + (p - 1) : Nat) := by
    rw [← Int.natCast_add, toInt32_of_lt (by omega)]
  have hdiv : (((L + (p - 1) : Nat) : Int).tdiv p) = ((L + (p - 1)) / p : Nat) :=
    (Int.ofNat_tdiv _ _).symm
  have hcount : n = (L + (p - 1)) / p := by
    have hle : (L + (p - 1)) / p ≤ L + (p - 1) := Nat.div_le_self _ _
    rw [pieceCountOf, if_neg (by omega), hsub, hsum, hdiv, toInt32_of_lt (by omega)] at hn
    exact (Int.ofNat.inj (Except.ok.inj hn)).symm
  refine ⟨hp, ?_, fun {i} hi => ?_, hfit⟩
  · have hlt := Nat.lt_mul_div_succ (L + (p - 1)) hp
    rw [← hcount, Nat.mul_add] at hlt
    omega
  · have hle : p * (i + 1) ≤ L + (p - 1) := by
      refine Nat.le_trans (Nat.mul_le_mul_left p hi) ?_
      rw [hcount]
      exact Nat.mul_div_le _ _
    rw [Nat.mul_add] at hle
    omega

namespace Pieces

variable {L p n i j k : Nat}

theorem pos_fits (h : Pieces L p n) (hi : i < n) : p * i < 2 ^ 31 := by
  have := h.needed hi
  have := h.fits
  omega

theorem toInt32_pos (h : Pieces L p n) (hi : i < n) : toInt32 ((p : Int) * i) = (p * i : Nat) := by
  rw [← Int.natCast_mul]
  exact toInt32_of_lt (h.pos_fits hi)

/-- A piece that is not the last one lies within the file. -/
theorem end_lt (h : Pieces L p n) (hi : i + 1 < n) : p * i + p < L := h.needed hi

theorem end_le (h : Pieces L p n) (hi : i + 1 = n) : L ≤ p * i + p := by
  have := h.covers
  rwa [← hi, Nat.mul_add, Nat.mul_one] at this

/-- Different pieces have no position in common. -/
theorem disjoint (hk : p * i ≤ k ∧ k < p * i + p) (hkj : p * j ≤ k ∧ k < p * j + p) : i = j := by
  rcases Nat.lt_trichotomy i j with hlt | heq | hgt
  · have := Nat.mul_le_mul_left p hlt
    rw [Nat.mul_succ] at this
    omega
  · exact heq
  · have := Nat.mul_le_mul_left p hgt
    rw [Nat.mul_succ] at this
    omega

/-- Every position of the file is in a piece. -/
theorem exists_piece (h : Pieces L p n) (hk : k < L) : ∃ i < n, p * i ≤ k ∧ k < p * i + p := by
  refine ⟨k / p, ?_, Nat.mul_div_le _ _, Nat.lt_mul_div_succ k h.size_pos⟩
  exact Nat.div_lt_of_lt_mul (Nat.lt_of_lt_of_le hk h.covers)

end Pieces

end JavaClient
end Raiezau
