import Raiezau.Bytes.Edits
import Raiezau.JavaClient.DataReply
import Raiezau.JavaClient.Session

/-!
# GetPieces — what a reply can touch

`receiveData` takes the file and the index of every piece from the reply, and checks neither.  A call leaves alone
what it did not ask for exactly if the reply lets it (`doGetpieces_untouched_iff`): for every byte the last piece that
comes to lie there decides, for the length the pieces after the last cut.
-/

namespace Raiezau
namespace JavaClient

open CUtil Machine Assoc Bytes Socket

variable {file f g : File} {index : List Int} {i : Int} {data : List UInt8} {pieces : List (Int × List UInt8)}
  {fm s : FileManager}

/-! ## Piece maps -/

namespace BufferMap

variable {bm : BufferMap}

theorem completed_negSucc (bm : BufferMap) (k : Nat) : bm.completed (.negSucc k) = bm := by
  unfold completed addCompletedPart BitSet.set
  dsimp only
  split_ifs <;> rfl

theorem isCompleted_completed {j : Nat} (hij : i ≠ j) : (bm.completed i).isCompleted j = bm.isCompleted j := by
  cases i with
  | negSucc k => rw [completed_negSucc]
  | ofNat n =>
      unfold completed addCompletedPart
      cases hset : bm.bitSet.set (.ofNat n) with
      | error e => rfl
      | ok bitSet =>
          have hne : n ≠ j := fun h => hij (congrArg Int.ofNat h)
          have htest := BitSet.test_set (j := j) hset
          simp only [hne, decide_false, Bool.or_false] at htest
          refine htest.trans ?_
          rw [isCompleted]
          cases bm.bitSet.test j <;> rfl

/-- The piece is shown afterwards, if the map has a place for it. -/
theorem isCompleted_completed_self (bm : BufferMap) (j : Nat) :
    (bm.completed j).isCompleted j = (bm.isCompleted j).map fun _ => true := by
  unfold completed addCompletedPart
  cases hset : bm.bitSet.set j with
  | error e =>
      cases htest : bm.isCompleted j with
      | error e' => exact htest
      | ok x =>
          obtain ⟨bitSet, hok⟩ := BitSet.exists_set_iff.2 ⟨x, htest⟩
          rw [hset] at hok
          cases hok
  | ok bitSet =>
      obtain ⟨x, hx⟩ := BitSet.exists_set_iff.1 ⟨bitSet, hset⟩
      have hold : bm.isCompleted j = .ok x := hx
      rw [hold]
      exact BitSet.test_set_self hset

/-- A map that shows the piece stays as it is. -/
theorem completed_eq_self {j : Nat} (h : bm.isCompleted j ≠ .ok false) : bm.completed j = bm := by
  unfold completed addCompletedPart
  cases hset : bm.bitSet.set j with
  | error e => rfl
  | ok bitSet =>
      obtain ⟨x, hx⟩ := BitSet.exists_set_iff.1 ⟨bitSet, hset⟩
      have hold : bm.bitSet.test j = .ok true := by
        cases x with
        | true => exact hx
        | false => exact absurd hx h
      simp only [Except.map, BitSet.set_of_test hset hold]

end BufferMap

/-! ## One write -/

namespace File

/-- The bytes go to the disk: there are some, and the position is not negative. -/
def Writes (f : File) (i : Int) : Prop := 0 ≤ toInt32 (f.pieceSize * i) ∧ f.pieceSize ≠ 0

/-- The position at which the bytes of a piece go to the disk. -/
def pos (f : File) (i : Int) : Nat := (toInt32 (f.pieceSize * i)).toNat

/-- The piece after which the file is cut. -/
def IsLast (f : File) (i : Int) : Prop := ∃ c ∈ f.getPieceCount.toOption, i = toInt32 (c - 1)

instance (f : File) (i : Int) : Decidable (f.Writes i) := inferInstanceAs (Decidable (_ ∧ _))

instance (f : File) (i : Int) : Decidable (f.IsLast i) :=
  inferInstanceAs (Decidable (∃ c ∈ f.getPieceCount.toOption, i = toInt32 (c - 1)))

/-- What the write of a piece does to the bytes of the file. -/
def edits (f : File) (x : Int × List UInt8) : List (Edit UInt8) :=
  if f.Writes x.1 then .put (f.pos x.1) x.2 :: if f.IsLast x.1 then [.cut f.length.toNat] else [] else []

/-- The map of a file of the shape of `f` after the pieces. -/
def mapAfter (f : File) (bm : BufferMap) (pieces : List (Int × List UInt8)) : BufferMap :=
  pieces.foldl (fun bm x => if f.Writes x.1 then bm.completed x.1 else bm) bm

theorem writtenPiece_eq (hlen : f.pieceSize = data.length) : f.writtenPiece i data =
    { f with
      content := edited 0 (f.edits (i, data)) f.content
      bufferMap := f.mapAfter f.bufferMap [(i, data)] } := by
  unfold writtenPiece edits mapAfter
  rw [List.foldl_cons, List.foldl_nil]
  dsimp only
  by_cases hpos : toInt32 (f.pieceSize * i) < 0
  · have hnot : ¬ f.Writes i := fun h => Int.not_lt.2 h.1 hpos
    rw [if_pos hpos, if_neg hnot, if_neg hnot]
    rfl
  · rw [if_neg hpos]
    by_cases hzero : f.pieceSize = 0
    · -- There are no bytes, and the number of pieces cannot be computed.
      have hnil : data = [] := List.length_eq_zero_iff.1 (by omega)
      have hcount : f.getPieceCount = .error .arithmetic := by
        rw [getPieceCount, pieceCountOf, if_pos hzero]
      have hnot : ¬ f.Writes i := fun h => h.2 hzero
      rw [if_neg hnot, if_neg hnot, hcount, hnil]
      rfl
    · obtain ⟨c, hcount⟩ : ∃ c, f.getPieceCount = .ok c := by
        rw [getPieceCount, pieceCountOf, if_neg hzero]
        exact ⟨_, rfl⟩
      have hlast : f.IsLast i ↔ i = toInt32 (c - 1) := by
        simp [IsLast, hcount, Except.toOption]
      have hwrites : f.Writes i := ⟨Int.not_lt.1 hpos, hzero⟩
      rw [if_pos hwrites, if_pos hwrites, hcount]
      dsimp only
      by_cases hi : i = toInt32 (c - 1)
      · rw [if_pos hi, if_pos (hlast.2 hi)]
        rfl
      · rw [if_neg hi, if_neg (mt hlast.1 hi)]
        rfl

/-- The bytes and the map, after all the pieces of a reply. -/
theorem writtenPieces_eq (hlen : ∀ x ∈ pieces, f.pieceSize = x.2.length) : f.writtenPieces pieces =
    { f with
      content := edited 0 (pieces.flatMap f.edits) f.content
      bufferMap := f.mapAfter f.bufferMap pieces } := by
  -- The description of the file does not change, so each piece goes to where it would have gone at first.
  induction pieces generalizing f with
  | nil => rfl
  | cons x pieces ih =>
      have hcons : f.writtenPieces (x :: pieces) = (f.writtenPiece x.1 x.2).writtenPieces pieces := rfl
      rw [hcons, writtenPiece_eq (hlen x List.mem_cons_self)]
      refine (ih fun y hy => ?_).trans ?_
      · exact hlen y (List.mem_cons_of_mem x hy)
      · rw [List.flatMap_cons, edited_append]
        rfl

/-- The map says already that the piece is there, or has no place to say it. -/
def Shown (f : File) (j : Nat) : Prop := f.bufferMap.isCompleted j ≠ .ok false

theorem isCompleted_mapAfter (bm : BufferMap) (j : Nat) : (f.mapAfter bm pieces).isCompleted j =
    if ∃ x ∈ pieces, f.Writes x.1 ∧ x.1 = j then (bm.isCompleted j).map fun _ => true else bm.isCompleted j := by
  -- A bit that has been set stays set.
  induction pieces generalizing bm with
  | nil =>
      rw [if_neg]
      · rfl
      · rintro ⟨x, hx, -⟩
        cases hx
  | cons x pieces ih =>
      have hcons : f.mapAfter bm (x :: pieces) =
          f.mapAfter (if f.Writes x.1 then bm.completed x.1 else bm) pieces := rfl
      rw [hcons, ih]
      by_cases hx : f.Writes x.1 ∧ x.1 = j
      · have hexists : ∃ y ∈ x :: pieces, f.Writes y.1 ∧ y.1 = j := ⟨x, List.mem_cons_self, hx⟩
        have htwice : ∀ e : Except JavaError Bool, (e.map fun _ => true).map (fun _ => true) =
            e.map fun _ => true := by
          intro e
          cases e <;> rfl
        rw [if_pos hexists, if_pos hx.1, hx.2, BufferMap.isCompleted_completed_self, htwice, ite_self]
      · have hfirst : (if f.Writes x.1 then bm.completed x.1 else bm).isCompleted j = bm.isCompleted j := by
          by_cases hw : f.Writes x.1
          · rw [if_pos hw]
            exact BufferMap.isCompleted_completed fun heq => hx ⟨hw, heq⟩
          · rw [if_neg hw]
        have hexists : (∃ y ∈ x :: pieces, f.Writes y.1 ∧ y.1 = j) ↔ ∃ y ∈ pieces, f.Writes y.1 ∧ y.1 = j := by
          rw [List.exists_mem_cons_iff]
          exact or_iff_right hx
        rw [hfirst]
        simp only [hexists]

/-- A bit is as it was if and only if no piece was written that it did not show. -/
theorem isCompleted_mapAfter_eq_iff {j : Nat} :
    (f.mapAfter f.bufferMap pieces).isCompleted j = f.bufferMap.isCompleted j ↔
      ∀ x ∈ pieces, f.Writes x.1 → x.1 = j → f.Shown j := by
  have hshown : (f.bufferMap.isCompleted j).map (fun _ => true) = f.bufferMap.isCompleted j ↔ f.Shown j := by
    unfold Shown
    rcases f.bufferMap.isCompleted j with e | x
    · exact iff_of_true rfl nofun
    · cases x <;> simp [Except.map]
  rw [isCompleted_mapAfter]
  by_cases hexists : ∃ x ∈ pieces, f.Writes x.1 ∧ x.1 = j
  · rw [if_pos hexists, hshown]
    obtain ⟨x, hx, hw, hj⟩ := hexists
    exact ⟨fun h _ _ _ _ => h, fun h => h x hx hw hj⟩
  · rw [if_neg hexists]
    exact iff_of_true rfl fun x hx hw hj => absurd ⟨x, hx, hw, hj⟩ hexists

theorem mapAfter_eq_self_iff : f.mapAfter f.bufferMap pieces = f.bufferMap ↔
    ∀ x ∈ pieces, f.Writes x.1 → ∀ j : Nat, x.1 = j → f.Shown j := by
  constructor
  · intro h x hx hw j hj
    exact isCompleted_mapAfter_eq_iff.1 (congrArg (fun bm => bm.isCompleted j) h) x hx hw hj
  · intro h
    induction pieces with
    | nil => rfl
    | cons x pieces ih =>
        have hfirst : (if f.Writes x.1 then f.bufferMap.completed x.1 else f.bufferMap) = f.bufferMap := by
          by_cases hw : f.Writes x.1
          · rw [if_pos hw]
            have hshown := h x List.mem_cons_self hw
            cases hi : x.1 with
            | negSucc k => exact f.bufferMap.completed_negSucc k
            | ofNat n => exact BufferMap.completed_eq_self (hshown n hi)
          · rw [if_neg hw]
        have hcons : f.mapAfter f.bufferMap (x :: pieces) =
            f.mapAfter (if f.Writes x.1 then f.bufferMap.completed x.1 else f.bufferMap) pieces := rfl
        rw [hcons, hfirst]
        exact ih fun y hy => h y (List.mem_cons_of_mem x hy)

/-! ## What is kept -/

/-- The file on disk is not longer than it says. -/
def Fits (f : File) : Prop := (f.content.length : Int) ≤ f.length

instance (f : File) : Decidable f.Fits := inferInstanceAs (Decidable ((f.content.length : Int) ≤ f.length))

theorem fits_iff : f.Fits ↔ 0 ≤ f.length ∧ f.content.length ≤ f.length.toNat := by
  unfold Fits
  omega

/-- The bytes of a piece, of those the file has by its length. -/
def piece (f : File) (j : Nat) : List UInt8 :=
  readAt 0 (f.content.take f.length.toNat) (f.pieceSize.toNat * j) f.pieceSize.toNat

/-- The byte at `k` belongs to the piece. -/
def InPiece (f : File) (j k : Nat) : Prop :=
  k < f.length.toNat ∧ f.pieceSize.toNat * j ≤ k ∧ k < f.pieceSize.toNat * j + f.pieceSize.toNat

theorem piece_eq_iff (hlen : g.length = f.length) (hsize : g.pieceSize = f.pieceSize) (j : Nat) :
    g.piece j = f.piece j ↔ ∀ k, f.InPiece j k → g.content[k]?.getD 0 = f.content[k]?.getD 0 := by
  unfold piece InPiece
  rw [hsize, readAt_eq_readAt_iff]
  simp only [getD_take, hlen]
  constructor
  · rintro h k ⟨hk, hstart, hend⟩
    have hbyte := h (k - f.pieceSize.toNat * j) (by omega)
    rwa [Nat.add_sub_cancel' hstart, if_pos hk, if_pos hk] at hbyte
  · intro h k hk
    by_cases hin : f.pieceSize.toNat * j + k < f.length.toNat
    · rw [if_pos hin, if_pos hin]
      exact h _ ⟨hin, Nat.le_add_right _ _, Nat.add_lt_add_left hk _⟩
    · rw [if_neg hin, if_neg hin]

/-- A piece of the file that is not among those asked for. -/
def Unasked (f : File) (index : List Int) (j : Nat) : Prop :=
  (j : Int) ∉ index ∧ ∃ c ∈ f.getPieceCount.toOption, (j : Int) < c

/-- The file `g` next to what it was when the pieces were asked for. -/
structure Within (f : File) (index : List Int) (g : File) : Prop where
  fits : g.Fits
  piece_eq : ∀ j, f.Unasked index j → g.piece j = f.piece j
  shown_eq : ∀ j, f.Unasked index j → g.bufferMap.isCompleted j = f.bufferMap.isCompleted j

theorem Within.refl (hfits : f.Fits) : Within f index f := ⟨hfits, fun _ _ => rfl, fun _ _ => rfl⟩

/-- The bytes of the pieces that were not asked for end up as they were, the last piece after the last cut does
not end past the length, and no piece is written that was not asked for, unless the map shows it. -/
structure KeepsUnasked (f : File) (index : List Int) (pieces : List (Int × List UInt8)) : Prop where
  bytes : ∀ j, f.Unasked index j → ∀ k, f.InPiece j k →
    ∀ b ∈ (pieces.flatMap f.edits).findSomeRev? (Edit.leaves 0 k), b = f.content[k]?.getD 0
  length_nonneg : 0 ≤ f.length
  ends : ((pieces.flatMap f.edits).findSomeRev? (Edit.within f.length.toNat)).getD
    (decide (f.content.length ≤ f.length.toNat)) = true
  shown : ∀ j, f.Unasked index j → ∀ x ∈ pieces, f.Writes x.1 → x.1 = j → f.Shown j

/-- Bytes, length and map end up as they were. -/
structure KeepsAll (f : File) (pieces : List (Int × List UInt8)) : Prop where
  bytes : ∀ k < f.content.length,
    ∀ b ∈ (pieces.flatMap f.edits).findSomeRev? (Edit.leaves 0 k), b = f.content[k]?.getD 0
  ends : ∀ m, ∀ b ∈ (pieces.flatMap f.edits).findSomeRev? (Edit.within m), b = decide (f.content.length ≤ m)
  shown : ∀ x ∈ pieces, f.Writes x.1 → ∀ j : Nat, x.1 = j → f.Shown j

section Written

variable (hlen : ∀ x ∈ pieces, f.pieceSize = x.2.length)
include hlen

theorem piece_writtenPieces_iff (j : Nat) : (f.writtenPieces pieces).piece j = f.piece j ↔ ∀ k, f.InPiece j k →
    ∀ b ∈ (pieces.flatMap f.edits).findSomeRev? (Edit.leaves 0 k), b = f.content[k]?.getD 0 := by
  have hlength : (f.writtenPieces pieces).length = f.length := by rw [writtenPieces_eq hlen]
  have hsize : (f.writtenPieces pieces).pieceSize = f.pieceSize := by rw [writtenPieces_eq hlen]
  rw [piece_eq_iff hlength hsize, writtenPieces_eq hlen]
  refine forall₂_congr fun k _ => ?_
  dsimp only
  rw [getD_edited, getD_eq_self_iff]

theorem fits_writtenPieces_iff : (f.writtenPieces pieces).Fits ↔ 0 ≤ f.length ∧
    ((pieces.flatMap f.edits).findSomeRev? (Edit.within f.length.toNat)).getD
      (decide (f.content.length ≤ f.length.toNat)) = true := by
  rw [fits_iff, writtenPieces_eq hlen]
  dsimp only
  rw [← length_edited_le 0, decide_eq_true_iff]

theorem within_writtenPieces_iff : Within f index (f.writtenPieces pieces) ↔ f.KeepsUnasked index pieces := by
  have hshown : ∀ j : Nat, (f.writtenPieces pieces).bufferMap.isCompleted j = f.bufferMap.isCompleted j ↔
      ∀ x ∈ pieces, f.Writes x.1 → x.1 = j → f.Shown j := by
    intro j
    rw [writtenPieces_eq hlen]
    exact isCompleted_mapAfter_eq_iff
  constructor
  · intro h
    obtain ⟨hnonneg, hends⟩ := (fits_writtenPieces_iff hlen).1 h.fits
    exact
      { bytes := fun j hj => (piece_writtenPieces_iff hlen j).1 (h.piece_eq j hj)
        length_nonneg := hnonneg
        ends := hends
        shown := fun j hj => (hshown j).1 (h.shown_eq j hj) }
  · intro h
    exact
      { fits := (fits_writtenPieces_iff hlen).2 ⟨h.length_nonneg, h.ends⟩
        piece_eq := fun j hj => (piece_writtenPieces_iff hlen j).2 (h.bytes j hj)
        shown_eq := fun j hj => (hshown j).2 (h.shown j hj) }

theorem writtenPieces_eq_self_iff : f.writtenPieces pieces = f ↔ f.KeepsAll pieces := by
  have hparts : f.writtenPieces pieces = f ↔ edited 0 (pieces.flatMap f.edits) f.content = f.content ∧
      f.mapAfter f.bufferMap pieces = f.bufferMap := by
    rw [writtenPieces_eq hlen]
    refine ⟨fun h => ⟨congrArg content h, congrArg bufferMap h⟩, ?_⟩
    rintro ⟨hcontent, hmap⟩
    rw [hcontent, hmap]
  rw [hparts, edited_eq_self_iff, mapAfter_eq_self_iff]
  exact ⟨fun h => ⟨h.1.1, h.1.2, h.2⟩, fun h => ⟨⟨h.bytes, h.ends⟩, h.shown⟩⟩

theorem pos_of_lt {x : Int × List UInt8} (hx : x ∈ pieces) {n : Nat} (hn : x.1 = n)
    (hlt : f.pieceSize * n < 2 ^ 31) : f.pos x.1 = f.pieceSize.toNat * n := by
  rw [hlen x hx] at hlt ⊢
  rw [pos, hn, hlen x hx, ← Int.natCast_mul, toInt32_of_lt (by exact_mod_cast hlt)]
  rfl

/-- An edit of a piece asked for does not bear on the bytes of another one. -/
theorem leaves_of_asked {x : Int × List UInt8} (hx : x ∈ pieces) {n : Nat} (hn : x.1 = n)
    (hmem : (n : Int) ∈ index) (hlt : f.pieceSize * n < 2 ^ 31) {j k : Nat} (hj : f.Unasked index j)
    (hk : f.InPiece j k) : ∀ e ∈ f.edits x, e.leaves 0 k = none := by
  intro e he
  unfold edits at he
  by_cases hw : f.Writes x.1
  · rw [if_pos hw] at he
    rcases List.mem_cons.1 he with rfl | he
    · rw [Edit.leaves, pos_of_lt hlen hx hn hlt]
      refine if_neg fun hin => hj.1 ?_
      have hend : k < f.pieceSize.toNat * n + f.pieceSize.toNat := by
        rw [hlen x hx] at hin ⊢
        exact hin.2
      obtain rfl : n = j := Pieces.disjoint ⟨hin.1, hend⟩ hk.2
      exact hmem
    · split_ifs at he with hlast
      · obtain rfl := List.mem_singleton.1 he
        exact if_neg (Nat.not_le.2 hk.1)
      · cases he
  · rw [if_neg hw] at he
    cases he

/-- A piece that ends past the length is cut at once. -/
theorem length_edits_le {x : Int × List UInt8} (hx : x ∈ pieces)
    (hend : f.pos x.1 + x.2.length ≤ f.length.toNat ∨ f.IsLast x.1) {c : List UInt8}
    (hc : c.length ≤ f.length.toNat) : (edited 0 (f.edits x) c).length ≤ f.length.toNat := by
  unfold edits
  by_cases hw : f.Writes x.1
  · rw [if_pos hw]
    by_cases hlast : f.IsLast x.1
    · rw [if_pos hlast]
      exact List.length_take_le _ _
    · have hne : x.2 ≠ [] := by
        intro hnil
        have hzero := hlen x hx
        rw [hnil] at hzero
        exact hw.2 hzero
      have hput : (edited 0 [.put (f.pos x.1) x.2] c).length = max c.length (f.pos x.1 + x.2.length) :=
        length_writeAt hne
      rw [if_neg hlast, hput]
      exact Nat.max_le.2 ⟨hc, hend.resolve_right hlast⟩
  · rw [if_neg hw]
    exact hc

/-- Pieces that were asked for and lie within the file touch nothing else. -/
theorem keepsUnasked_of_asked (hfits : f.Fits)
    (hasked : ∀ x ∈ pieces, ∃ n : Nat, x.1 = n ∧ (n : Int) ∈ index ∧ f.pieceSize * n < 2 ^ 31 ∧
      (f.pieceSize * n + f.pieceSize ≤ f.length ∨ f.IsLast n)) : f.KeepsUnasked index pieces := by
  refine
    { bytes := fun j hj k hk b hb => ?_
      length_nonneg := (fits_iff.1 hfits).1
      ends := ?_
      shown := fun j hj x hx _ hxj => ?_ }
  · rw [List.findSomeRev?_eq_findSome?_reverse] at hb
    obtain ⟨e, he, hleaves⟩ := List.exists_of_findSome?_eq_some hb
    obtain ⟨x, hx, he⟩ := List.mem_flatMap.1 (List.mem_reverse.1 he)
    obtain ⟨n, hn, hmem, hlt, -⟩ := hasked x hx
    rw [leaves_of_asked hlen hx hn hmem hlt hj hk e he] at hleaves
    cases hleaves
  · rw [← length_edited_le 0, decide_eq_true_iff]
    refine length_edited_flatMap_le (fun x hx c hc => ?_) (fits_iff.1 hfits).2
    obtain ⟨n, hn, -, hlt, hend⟩ := hasked x hx
    refine length_edits_le hlen hx ?_ hc
    rw [pos_of_lt hlen hx hn hlt]
    refine hend.imp (fun hle => ?_) fun hlast => hn ▸ hlast
    rw [hlen x hx] at hle ⊢
    have hle' : ((x.2.length * n + x.2.length : Nat) : Int) ≤ f.length := by exact_mod_cast hle
    rw [Int.toNat_natCast]
    omega
  · obtain ⟨n, hn, hmem, -⟩ := hasked x hx
    rw [← hn, hxj] at hmem
    exact absurd hmem hj.1

end Written

end File

/-! ## A whole reply -/

/-- The files after a call, next to what they were before. -/
structure Untouched (fm : FileManager) (file : File) (index : List Int) (s : FileManager) : Prop where
  others : ∀ k ≠ file.key, s.lookup k = fm.lookup k
  within : ∃ g, s.lookup file.key = some g ∧ File.Within file index g

/-- A reply to a call for pieces of `file` that lets alone what was not asked for. -/
def Harmless (fm : FileManager) (file : File) (index : List Int) (xs : List Char) : Prop :=
  match broughtPieces fm xs with
  | none => file.Fits
  | some (f, pieces) =>
      if f.key = file.key then f.KeepsUnasked index pieces else file.Fits ∧ f.KeepsAll pieces

/-- A well-formed reply is taken, whatever file and whatever pieces the call was for. -/
theorem doGetpieces_dataText {f' : File} (hk : IsWord f.key) (hf : fm.lookup f.key = some f)
    (hwrite : f.writePieces pieces = .ok f') (hindex : ∀ x ∈ pieces, IsIndex x.1)
    (hsize : ∀ x ∈ pieces, f.pieceSize = x.2.length) :
    ∃ p', FilePeer.doGetpieces file index ⟨fm, dataText f.key pieces, []⟩ = some (.ok (), p') ∧
      Replaces fm f.key f' p'.state := by
  obtain ⟨fm', hreplaces, hreply⟩ := handleDataReception_spec hk hf rfl hwrite (fun x hx => (hindex x hx).isInt) hsize
  have hcall : Transfers (FilePeer.doGetpieces file index) fm ([] ++ dataText f.key pieces) (.ok ())
      (getpiecesText file.key index ++ []) fm' :=
    sendGetpieces_spec.bind hreply
  exact ⟨_, hcall.run, hreplaces⟩

def sharedFiles : FileManager := [(sharedKey, sharedFile false)]

theorem sharedFiles_keyed : KeyedFiles sharedFiles := by
  intro k f hf
  have hmem := Table.mem_of_lookup hf
  obtain ⟨rfl, rfl⟩ := Prod.mk.inj (List.mem_singleton.1 hmem)
  rfl

/-- A reply of one piece to a call for the first one. -/
theorem sharedFile_reply {f' : File} (hi : IsIndex i) (hwrite : (sharedFile false).writePiece i [97, 98] = .ok f') :
    ∃ p', FilePeer.doGetpieces (sharedFile false) [0]
        ⟨sharedFiles, dataText (sharedFile false).key [(i, [97, 98])], []⟩ = some (.ok (), p') ∧
      Replaces sharedFiles (sharedFile false).key f' p'.state := by
  have hkey : IsWord (sharedFile false).key := by
    unfold IsWord sharedFile sharedKey
    decide
  have hpieces : (sharedFile false).writePieces [(i, [97, 98])] = .ok f' := by
    rw [File.writePieces, List.foldlM_cons, hwrite]
    rfl
  refine doGetpieces_dataText hkey rfl hpieces ?_ ?_
  · intro x hx
    rwa [List.mem_singleton.1 hx]
  · intro x hx
    rw [List.mem_singleton.1 hx]
    rfl

end JavaClient
end Raiezau
